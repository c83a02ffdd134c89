import Mathlib.Data.Fin.Basic
import LearnedIndexFramework.Lib.Run
import LearnedIndexFramework.Lippol.Model

/-! Epoch-based reclamation of `competitor/lippol` with any number of threads, one atomic step of
one thread at a time.  The machine does not look at what it reclaims, so the entries of the free
lists are of any type. -/

namespace LearnedIndexFramework.Lippol.Epoch

open Lib Function

/-- Where a thread stands in `enterCriticalSection`. -/
inductive Stage
  | outside
  | loaded (epoch : Fin 3)
  | freed (epoch : Fin 3)
  | announced (epoch : Fin 3)
  | scanned (epoch : Fin 3)
  | inside
  deriving DecidableEq

/-- `ThreadSpecificEpochBasedReclamationInformation`.  The epoch number 3 is `none`. -/
structure Info (α : Type) where
  freeLists : Fin 3 → List α := fun _ => []
  localEpoch : Option (Fin 3) := none
  previouslyAccessedEpoch : Option (Fin 3) := none
  threadWantsToAdvance : Bool := false
  stage : Stage := .outside

structure Strategy (n : ℕ) (α : Type) where
  currentEpoch : Fin 3 := 0
  infos : Fin n → Info α := fun _ => {}

/-- What a thread may do next: go on with `enterCriticalSection`, or, inside, retire an entry or
leave. -/
inductive Act (α : Type)
  | enter
  | scheduleForDeletion (entry : α)
  | leave

variable {n : ℕ} {α : Type}

section Threads

/-- The part of `enter` before the store, with the entries it frees. -/
def Info.freeForEpoch (info : Info α) (epoch : Fin 3) : List α × Info α :=
  if info.previouslyAccessedEpoch = some epoch then ([], { info with stage := .freed epoch })
  else (info.freeLists epoch, { info with
    freeLists := update info.freeLists epoch []
    threadWantsToAdvance := false
    previouslyAccessedEpoch := some epoch
    stage := .freed epoch })

def Info.scheduleForDeletion (info : Info α) (epoch : Fin 3) (entry : α) : Info α :=
  let currentFreeList := info.freeLists epoch ++ [entry]
  { info with
    freeLists := update info.freeLists epoch currentFreeList
    threadWantsToAdvance := currentFreeList.length % 64 = 0 }

end Threads

def Strategy.set (s : Strategy n α) (t : Fin n) (info : Info α) : Strategy n α :=
  { s with infos := update s.infos t info }

def Strategy.canAdvance (s : Strategy n α) (epoch : Fin 3) : Bool :=
  decide (∀ t, (s.infos t).localEpoch ≠ some (previousEpoch epoch))

def Strategy.compareExchange (s : Strategy n α) (epoch : Fin 3) : Strategy n α :=
  if s.currentEpoch = epoch then { s with currentEpoch := nextEpoch epoch } else s

/-- The next atomic step of `enterCriticalSection`, with the entries it frees. -/
def Strategy.enterStep (s : Strategy n α) (t : Fin n) : Except Unit (List α × Strategy n α) :=
  let info := s.infos t
  match info.stage with
  | .outside => .ok ([], s.set t { info with stage := .loaded s.currentEpoch })
  | .loaded epoch =>
    let (freed, info) := info.freeForEpoch epoch
    .ok (freed, s.set t info)
  | .freed epoch => .ok ([], s.set t { info with
      localEpoch := some epoch
      stage := .announced epoch })
  | .announced epoch => .ok ([], s.set t { info with
      stage := if info.threadWantsToAdvance && s.canAdvance epoch then .scanned epoch else .inside })
  | .scanned epoch => .ok ([], (s.set t { info with stage := .inside }).compareExchange epoch)
  | .inside => .error ()

def Strategy.step (s : Strategy n α) (t : Fin n) :
    Act α → Except Unit (List α × Strategy n α)
  | .enter => s.enterStep t
  | .scheduleForDeletion entry =>
    match (s.infos t).stage, (s.infos t).localEpoch with
    | .inside, some epoch => .ok ([], s.set t ((s.infos t).scheduleForDeletion epoch entry))
    | _, _ => .error ()
  | .leave =>
    match (s.infos t).stage with
    | .inside => .ok ([], s.set t { s.infos t with localEpoch := none, stage := .outside })
    | _ => .error ()

section Steps

@[simp] theorem set_currentEpoch (s : Strategy n α) (t : Fin n) (info : Info α) :
    (s.set t info).currentEpoch = s.currentEpoch := rfl

@[simp] theorem set_infos_self (s : Strategy n α) (t : Fin n) (info : Info α) :
    (s.set t info).infos t = info := by
  simp [Strategy.set]

theorem set_infos_of_ne (s : Strategy n α) {t a : Fin n} (info : Info α) (hne : a ≠ t) :
    (s.set t info).infos a = s.infos a := by
  simp [Strategy.set, hne]

variable {s s' : Strategy n α} {t : Fin n} {freed : List α}

theorem step_scheduleForDeletion {entry : α}
    (hstep : s.step t (.scheduleForDeletion entry) = .ok (freed, s')) :
    ∃ epoch, (s.infos t).stage = .inside ∧ (s.infos t).localEpoch = some epoch ∧ freed = [] ∧
      s' = s.set t ((s.infos t).scheduleForDeletion epoch entry) := by
  simp only [Strategy.step] at hstep
  split at hstep
  · next epoch hstage hlocal =>
    cases hstep
    exact ⟨epoch, hstage, hlocal, rfl, rfl⟩
  · cases hstep

theorem step_leave (hstep : s.step t .leave = .ok (freed, s')) :
    (s.infos t).stage = .inside ∧ freed = [] ∧
      s' = s.set t { s.infos t with localEpoch := none, stage := .outside } := by
  simp only [Strategy.step] at hstep
  split at hstep
  · next hstage =>
    cases hstep
    exact ⟨hstage, rfl, rfl⟩
  · cases hstep

theorem step_freed {act : Act α} (hstep : s.step t act = .ok (freed, s')) {entry : α}
    (hmem : entry ∈ freed) :
    ∃ epoch, (s.infos t).stage = .loaded epoch ∧
      (s.infos t).previouslyAccessedEpoch ≠ some epoch ∧
      entry ∈ (s.infos t).freeLists epoch := by
  cases act with
  | enter =>
    simp only [Strategy.step, Strategy.enterStep] at hstep
    split at hstep
    case h_2 epoch hstage =>
      cases hstep
      refine ⟨epoch, hstage, ?_⟩
      unfold Info.freeForEpoch at hmem
      split at hmem
      · cases hmem
      · next hprev => exact ⟨hprev, hmem⟩
    all_goals
      cases hstep
      try cases hmem
  | scheduleForDeletion e =>
    obtain ⟨-, -, -, rfl, -⟩ := step_scheduleForDeletion hstep
    cases hmem
  | leave =>
    obtain ⟨-, rfl, -⟩ := step_leave hstep
    cases hmem

end Steps

section Watched

/-- A retired node, with the threads that were in a critical section then and how many critical
sections each of them had left before. -/
structure Retirement (n : ℕ) (ν : Type) where
  node : ν
  guests : Fin n → Option ℕ

structure Watched (n : ℕ) (ν : Type) where
  strategy : Strategy n (Retirement n ν) := {}
  stays : Fin n → ℕ := fun _ => 0

variable {ν : Type}

def Watched.retirement (w : Watched n ν) (node : ν) : Retirement n ν where
  node
  guests t := if (w.strategy.infos t).localEpoch = none then none else some (w.stays t)

def Watched.act (w : Watched n ν) : Act ν → Act (Retirement n ν)
  | .enter => .enter
  | .scheduleForDeletion node => .scheduleForDeletion (w.retirement node)
  | .leave => .leave

def Watched.nextStays (w : Watched n ν) (t : Fin n) : Act ν → Fin n → ℕ
  | .leave => update w.stays t (w.stays t + 1)
  | _ => w.stays

def Watched.step (w : Watched n ν) (c : Fin n × Act ν) :
    Except Unit (List (Retirement n ν) × Watched n ν) := do
  let (freed, strategy) ← w.strategy.step c.1 (w.act c.2)
  return (freed, { strategy, stays := w.nextStays c.1 c.2 })

def Watched.Holds (w : Watched n ν) (t : Fin n) (r : Retirement n ν) : Prop :=
  r.guests t = some (w.stays t)

/-- The step leaves no announced epoch two behind the current one: a stored epoch is the current
or the previous one, and when the epoch advances no thread is announced in the previous one. -/
def Watched.KeepsUp (w : Watched n ν) (c : Fin n × Act ν) : Prop :=
  match c.2, (w.strategy.infos c.1).stage with
  | .enter, .freed epoch =>
    w.strategy.currentEpoch = epoch ∨ w.strategy.currentEpoch = nextEpoch epoch
  | .enter, .scanned epoch => w.strategy.currentEpoch = epoch →
      ∀ t, (w.strategy.infos t).localEpoch ≠ some (previousEpoch epoch)
  | _, _ => True

instance (w : Watched n ν) (c : Fin n × Act ν) : Decidable (w.KeepsUp c) := by
  unfold Watched.KeepsUp
  split <;> infer_instance

end Watched

section Erase

variable {β : Type} (f : α → β)

def Info.map (info : Info α) : Info β :=
  { info with freeLists := fun epoch => (info.freeLists epoch).map f }

def Strategy.map (s : Strategy n α) : Strategy n β :=
  { s with infos := fun t => (s.infos t).map f }

def Act.map : Act α → Act β
  | .enter => .enter
  | .scheduleForDeletion entry => .scheduleForDeletion (f entry)
  | .leave => .leave

variable {f}

theorem set_map (s : Strategy n α) (t : Fin n) (info : Info α) :
    (s.set t info).map f = (s.map f).set t (info.map f) := by
  have hinfos : (fun a => (update s.infos t info a).map f) =
      update (fun a => (s.infos a).map f) t (info.map f) := by
    funext a
    by_cases ha : a = t
    · subst ha
      simp
    · simp [ha]
  simp [Strategy.map, Strategy.set, hinfos]

theorem freeForEpoch_map (info : Info α) (epoch : Fin 3) :
    (info.map f).freeForEpoch epoch =
      ((info.freeForEpoch epoch).1.map f, (info.freeForEpoch epoch).2.map f) := by
  have hlists : update (fun e => (info.freeLists e).map f) epoch [] =
      fun e => (update info.freeLists epoch [] e).map f := by
    funext e
    by_cases he : e = epoch
    · subst he
      simp
    · simp [he]
  by_cases hprev : info.previouslyAccessedEpoch = some epoch
  · simp [Info.freeForEpoch, Info.map, hprev]
  · simp [Info.freeForEpoch, Info.map, hprev, hlists]

theorem scheduleForDeletion_map (info : Info α) (epoch : Fin 3) (entry : α) :
    (info.map f).scheduleForDeletion epoch (f entry) =
      (info.scheduleForDeletion epoch entry).map f := by
  have hlists : update (fun e => (info.freeLists e).map f) epoch
      ((info.freeLists epoch).map f ++ [f entry]) =
      fun e => (update info.freeLists epoch (info.freeLists epoch ++ [entry]) e).map f := by
    funext e
    by_cases he : e = epoch
    · subst he
      simp
    · simp [he]
  simp [Info.scheduleForDeletion, Info.map, hlists]

@[simp] theorem map_infos (s : Strategy n α) (t : Fin n) :
    (s.map f).infos t = (s.infos t).map f := rfl

@[simp] theorem map_stage (info : Info α) : (info.map f).stage = info.stage := rfl

@[simp] theorem map_localEpoch (info : Info α) : (info.map f).localEpoch = info.localEpoch := rfl

theorem compareExchange_map (s : Strategy n α) (epoch : Fin 3) :
    (s.compareExchange epoch).map f = (s.map f).compareExchange epoch := by
  by_cases heq : s.currentEpoch = epoch
  · simp [Strategy.compareExchange, Strategy.map, heq]
  · simp [Strategy.compareExchange, Strategy.map, heq]

theorem enterStep_map (s : Strategy n α) (t : Fin n) :
    (s.map f).enterStep t = (s.enterStep t).map fun x => (x.1.map f, x.2.map f) := by
  simp only [Strategy.enterStep, map_infos, map_stage]
  cases (s.infos t).stage with
  | outside =>
    simp only [Except.map, set_map]
    rfl
  | loaded epoch =>
    simp only [Except.map, set_map, freeForEpoch_map]
  | freed epoch =>
    simp only [Except.map, set_map]
    rfl
  | announced epoch =>
    simp only [Except.map, set_map]
    rfl
  | scanned epoch =>
    simp only [Except.map, compareExchange_map, set_map]
    rfl
  | inside => rfl

theorem step_map (s : Strategy n α) (t : Fin n) (act : Act α) :
    (s.map f).step t (act.map f) = (s.step t act).map fun x => (x.1.map f, x.2.map f) := by
  cases act with
  | enter => exact enterStep_map s t
  | scheduleForDeletion entry =>
    simp only [Act.map, Strategy.step, map_infos, map_stage, map_localEpoch]
    split
    · simp only [Except.map, set_map, scheduleForDeletion_map]
      rfl
    · rfl
  | leave =>
    simp only [Act.map, Strategy.step, map_infos, map_stage]
    split
    · simp only [Except.map, set_map]
      rfl
    · rfl

variable {ν : Type}

theorem Watched.step_erase (w : Watched n ν) (c : Fin n × Act ν) :
    (w.strategy.map Retirement.node).step c.1 c.2 =
      (w.step c).map fun x => (x.1.map Retirement.node, x.2.strategy.map Retirement.node) := by
  have hact : (w.act c.2).map Retirement.node = c.2 := by
    cases c.2 <;> rfl
  rw [← hact, step_map, Watched.step]
  cases w.strategy.step c.1 (w.act c.2) <;> rfl

end Erase

section Near

def Near (current announced : Fin 3) : Prop :=
  current = announced ∨ current = nextEpoch announced

def Past (current announced epoch : Fin 3) : Prop :=
  (current = announced ∧ epoch = previousEpoch announced) ∨
    (current = nextEpoch announced ∧ epoch ≠ nextEpoch announced)

instance (c l : Fin 3) : Decidable (Near c l) := inferInstanceAs (Decidable (_ ∨ _))

instance (c l e : Fin 3) : Decidable (Past c l e) := inferInstanceAs (Decidable (_ ∨ _))

theorem Past.ne : ∀ {c l e : Fin 3}, Past c l e → c ≠ e := by decide

theorem Near.advance : ∀ {c l : Fin 3}, Near c l → l ≠ previousEpoch c → l = c := by decide

theorem Past.advance : ∀ {c e : Fin 3}, Past c c e → Past (nextEpoch c) c e := by decide

theorem past_advance : ∀ c : Fin 3, Past (nextEpoch c) c c := by decide

theorem near_advance (c : Fin 3) : Near (nextEpoch c) c := .inr rfl

theorem Near.eq_or_past : ∀ {c e l : Fin 3}, Near c e → Near c l → c = e ∨ Past c l e := by decide

end Near

section Invariant

def Info.Staged (info : Info α) : Prop :=
  match info.stage with
  | .outside => info.localEpoch = none
  | .loaded _ => info.localEpoch = none
  | .freed epoch => info.localEpoch = none ∧ info.previouslyAccessedEpoch = some epoch
  | .announced epoch => info.localEpoch = some epoch ∧ info.previouslyAccessedEpoch = some epoch
  | .scanned epoch => info.localEpoch = some epoch ∧ info.previouslyAccessedEpoch = some epoch
  | .inside => ∃ epoch, info.localEpoch = some epoch ∧ info.previouslyAccessedEpoch = some epoch

structure Kept (current : Fin 3) (owner : Info α) (epoch announced : Fin 3) : Prop where
  loaded : owner.stage = .loaded epoch → owner.previouslyAccessedEpoch = some epoch
  next : (current = epoch ∧ owner.previouslyAccessedEpoch = some epoch ∧
    ∀ e, owner.stage = .loaded e → e = epoch) ∨ Past current announced epoch

variable {ν : Type} {w : Watched n ν} {t : Fin n}

structure Watched.Safe (w : Watched n ν) : Prop where
  staged : ∀ t, (w.strategy.infos t).Staged
  near : ∀ t l, (w.strategy.infos t).localEpoch = some l → Near w.strategy.currentEpoch l
  stays : ∀ a e, ∀ r ∈ (w.strategy.infos a).freeLists e, ∀ t k,
    r.guests t = some k → k ≤ w.stays t
  kept : ∀ a e, ∀ r ∈ (w.strategy.infos a).freeLists e, ∀ t, w.Holds t r →
    ∃ l, (w.strategy.infos t).localEpoch = some l ∧
      Kept w.strategy.currentEpoch (w.strategy.infos a) e l

theorem Watched.Safe.initial : ({} : Watched n ν).Safe where
  staged _ := rfl
  near := nofun
  stays := nofun
  kept := nofun

theorem Watched.Safe.set (h : w.Safe) {info : Info (Retirement n ν)} (hstaged : info.Staged)
    (hlists : ∀ e, info.freeLists e ⊆ (w.strategy.infos t).freeLists e)
    (hlocal : ∀ l, (w.strategy.infos t).localEpoch = some l → info.localEpoch = some l)
    (hnear : ∀ l, info.localEpoch = some l → Near w.strategy.currentEpoch l)
    (hkept : ∀ e l, info.freeLists e ≠ [] →
      Kept w.strategy.currentEpoch (w.strategy.infos t) e l →
      Kept w.strategy.currentEpoch info e l) :
    ({ w with strategy := w.strategy.set t info } : Watched n ν).Safe := by
  have hmem : ∀ a e, ∀ r ∈ ((w.strategy.set t info).infos a).freeLists e,
      r ∈ (w.strategy.infos a).freeLists e := by
    intro a e r hr
    by_cases ha : a = t
    · subst ha
      rw [set_infos_self] at hr
      exact hlists e hr
    · rwa [set_infos_of_ne _ _ ha] at hr
  refine ⟨fun a => ?_, fun a l hl => ?_, fun a e r hr => h.stays a e r (hmem a e r hr),
    fun a e r hr b hb => ?_⟩
  · by_cases ha : a = t
    · subst ha
      simpa using hstaged
    · simpa [set_infos_of_ne _ _ ha] using h.staged a
  · by_cases ha : a = t
    · subst ha
      exact hnear l (by simpa using hl)
    · exact h.near a l (by simpa [set_infos_of_ne _ _ ha] using hl)
  · obtain ⟨l, hl, hk⟩ := h.kept a e r (hmem a e r hr) b hb
    refine ⟨l, ?_, ?_⟩
    · by_cases hbt : b = t
      · subst hbt
        simpa using hlocal l hl
      · simpa [set_infos_of_ne _ _ hbt] using hl
    · by_cases ha : a = t
      · subst ha
        simp only [set_infos_self] at hr ⊢
        exact hkept e l (List.ne_nil_of_mem hr) hk
      · simpa [set_infos_of_ne _ _ ha] using hk

theorem Kept.of_stage {current e l : Fin 3} {owner : Info α} (h : Kept current owner e l)
    {info : Info α} (hprev : info.previouslyAccessedEpoch = owner.previouslyAccessedEpoch)
    (hstage : ∀ e, info.stage ≠ .loaded e) : Kept current info e l where
  loaded hload := absurd hload (hstage e)
  next := h.next.imp (fun hnext => ⟨hnext.1, hprev.trans hnext.2.1,
    fun e' hload => absurd hload (hstage e')⟩) id

theorem Watched.Safe.load (h : w.Safe) (hstage : (w.strategy.infos t).stage = .outside) :
    ({ w with strategy := w.strategy.set t { w.strategy.infos t with
        stage := .loaded w.strategy.currentEpoch } } : Watched n ν).Safe := by
  have hnone : (w.strategy.infos t).localEpoch = none := by
    simpa [Info.Staged, hstage] using h.staged t
  refine h.set hnone (fun e => List.Subset.refl _) (fun l hl => hl) (h.near t) ?_
  intro e l _ hk
  rcases hk.next with ⟨rfl, hprev, -⟩ | hpast
  · exact ⟨fun _ => hprev, .inl ⟨rfl, hprev, fun e he => (Stage.loaded.inj he).symm⟩⟩
  · exact ⟨fun he => absurd (Stage.loaded.inj he) hpast.ne, .inr hpast⟩

theorem Watched.Safe.free (h : w.Safe) {epoch : Fin 3}
    (hstage : (w.strategy.infos t).stage = .loaded epoch) :
    ({ w with strategy := w.strategy.set t ((w.strategy.infos t).freeForEpoch epoch).2 } :
      Watched n ν).Safe := by
  have hnone : (w.strategy.infos t).localEpoch = none := by
    simpa [Info.Staged, hstage] using h.staged t
  unfold Info.freeForEpoch
  split
  · next hprev =>
    exact h.set ⟨hnone, hprev⟩ (fun e => List.Subset.refl _) (fun l hl => hl) (h.near t)
      fun e l _ hk => hk.of_stage rfl nofun
  · next hprev =>
    refine h.set ⟨hnone, rfl⟩ (fun e => ?_) (fun l hl => hl) (h.near t) fun e l hne hk => ?_
    · by_cases he : e = epoch
      · subst he
        simp
      · simp [update_of_ne he]
    · have he : e ≠ epoch := by
        rintro rfl
        exact hne (update_self ..)
      refine ⟨nofun, .inr ?_⟩
      rcases hk.next with ⟨-, -, hload⟩ | hpast
      · exact absurd (hload epoch hstage).symm he
      · exact hpast

theorem Watched.Safe.announce (h : w.Safe) {epoch : Fin 3}
    (hstage : (w.strategy.infos t).stage = .freed epoch)
    (hnear : Near w.strategy.currentEpoch epoch) :
    ({ w with strategy := w.strategy.set t { w.strategy.infos t with
        localEpoch := some epoch
        stage := .announced epoch } } : Watched n ν).Safe := by
  obtain ⟨hnone, hprev⟩ : (w.strategy.infos t).localEpoch = none ∧
      (w.strategy.infos t).previouslyAccessedEpoch = some epoch := by
    simpa [Info.Staged, hstage] using h.staged t
  refine h.set ⟨rfl, hprev⟩ (fun e => List.Subset.refl _) (fun l hl => ?_) (fun l hl => ?_)
    fun e l _ hk => hk.of_stage rfl nofun
  · cases hnone.symm.trans hl
  · obtain rfl := Option.some.inj hl
    exact hnear

theorem Watched.Safe.scan (h : w.Safe) {epoch : Fin 3}
    (hstage : (w.strategy.infos t).stage = .announced epoch) {stage : Stage}
    (hnext : stage = .scanned epoch ∨ stage = .inside) :
    ({ w with strategy := w.strategy.set t { w.strategy.infos t with stage } } :
      Watched n ν).Safe := by
  have hlocal : (w.strategy.infos t).localEpoch = some epoch ∧
      (w.strategy.infos t).previouslyAccessedEpoch = some epoch := by
    simpa [Info.Staged, hstage] using h.staged t
  rcases hnext with rfl | rfl
  · exact h.set hlocal (fun e => List.Subset.refl _) (fun l hl => hl) (h.near t)
      fun e l _ hk => hk.of_stage rfl nofun
  · exact h.set ⟨epoch, hlocal⟩ (fun e => List.Subset.refl _) (fun l hl => hl) (h.near t)
      fun e l _ hk => hk.of_stage rfl nofun

theorem Watched.Safe.pass (h : w.Safe) {epoch : Fin 3}
    (hstage : (w.strategy.infos t).stage = .scanned epoch) :
    ({ w with strategy := w.strategy.set t { w.strategy.infos t with stage := .inside } } :
      Watched n ν).Safe := by
  have hlocal : (w.strategy.infos t).localEpoch = some epoch ∧
      (w.strategy.infos t).previouslyAccessedEpoch = some epoch := by
    simpa [Info.Staged, hstage] using h.staged t
  exact h.set ⟨epoch, hlocal⟩ (fun e => List.Subset.refl _) (fun l hl => hl) (h.near t)
    fun e l _ hk => hk.of_stage rfl nofun

theorem Watched.Safe.advance (h : w.Safe)
    (hscan : ∀ t,
      (w.strategy.infos t).localEpoch ≠ some (previousEpoch w.strategy.currentEpoch)) :
    ({ w with strategy := { w.strategy with
        currentEpoch := nextEpoch w.strategy.currentEpoch } } : Watched n ν).Safe := by
  have hcurrent : ∀ t l, (w.strategy.infos t).localEpoch = some l →
      l = w.strategy.currentEpoch := by
    intro t l hl
    refine (h.near t l hl).advance fun heq => ?_
    rw [heq] at hl
    exact hscan t hl
  refine ⟨h.staged, fun t l hl => ?_, h.stays, fun a e r hr t ht => ?_⟩
  · rw [hcurrent t l hl]
    exact near_advance _
  · obtain ⟨l, hl, hk⟩ := h.kept a e r hr t ht
    obtain rfl := hcurrent t l hl
    refine ⟨_, hl, hk.loaded, .inr ?_⟩
    rcases hk.next with ⟨rfl, -, -⟩ | hpast
    · exact past_advance _
    · exact hpast.advance

theorem Watched.Safe.retire (h : w.Safe) {epoch : Fin 3}
    (hstage : (w.strategy.infos t).stage = .inside)
    (hlocal : (w.strategy.infos t).localEpoch = some epoch) (node : ν) :
    ({ w with strategy := w.strategy.set t <|
        (w.strategy.infos t).scheduleForDeletion epoch (w.retirement node) } :
      Watched n ν).Safe := by
  set info := (w.strategy.infos t).scheduleForDeletion epoch (w.retirement node) with hinfo
  have hprev : (w.strategy.infos t).previouslyAccessedEpoch = some epoch := by
    obtain ⟨e, he, hprev⟩ : ∃ e, (w.strategy.infos t).localEpoch = some e ∧
        (w.strategy.infos t).previouslyAccessedEpoch = some e := by
      simpa [Info.Staged, hstage] using h.staged t
    rwa [Option.some.inj (hlocal.symm.trans he)]
  have hmem : ∀ a e, ∀ r ∈ ((w.strategy.set t info).infos a).freeLists e,
      r ∈ (w.strategy.infos a).freeLists e ∨ (a = t ∧ e = epoch ∧ r = w.retirement node) := by
    intro a e r hr
    by_cases ha : a = t
    · subst ha
      by_cases he : e = epoch
      · subst he
        simpa [hinfo, Info.scheduleForDeletion] using hr
      · left
        simpa [hinfo, Info.scheduleForDeletion, update_of_ne he] using hr
    · left
      rwa [set_infos_of_ne _ _ ha] at hr
  have hsame : ∀ a, ((w.strategy.set t info).infos a).localEpoch =
      (w.strategy.infos a).localEpoch := by
    intro a
    by_cases ha : a = t
    · subst ha
      rw [set_infos_self, hinfo]
      rfl
    · rw [set_infos_of_ne _ _ ha]
  refine ⟨fun a => ?_, fun a l hl => h.near a l ((hsame a).symm.trans hl), fun a e r hr b k hb => ?_,
    fun a e r hr b hb => ?_⟩
  · by_cases ha : a = t
    · subst ha
      rw [set_infos_self]
      exact h.staged a
    · simpa [set_infos_of_ne _ _ ha] using h.staged a
  · rcases hmem a e r hr with hr | ⟨-, -, rfl⟩
    · exact h.stays a e r hr b k hb
    · simp only [Watched.retirement] at hb
      split at hb
      · cases hb
      · exact (Option.some.inj hb).ge
  · rcases hmem a e r hr with hr | ⟨rfl, rfl, rfl⟩
    · obtain ⟨l, hl, hk⟩ := h.kept a e r hr b hb
      refine ⟨l, (hsame b).trans hl, ?_⟩
      by_cases ha : a = t
      · subst ha
        refine hk.of_stage ?_ ?_
        · simp [hinfo, Info.scheduleForDeletion]
        · simp [hinfo, Info.scheduleForDeletion, hstage]
      · simpa [set_infos_of_ne _ _ ha] using hk
    · cases hl : (w.strategy.infos b).localEpoch with
      | none => simp [Watched.Holds, Watched.retirement, hl] at hb
      | some l =>
        refine ⟨l, (hsame b).trans hl, ?_, ?_⟩
        · simp [hinfo, Info.scheduleForDeletion, hstage]
        · refine ((h.near a e hlocal).eq_or_past (h.near b l hl)).imp (fun heq => ⟨heq, ?_, ?_⟩) id
          · simpa [hinfo, Info.scheduleForDeletion] using hprev
          · simp [hinfo, Info.scheduleForDeletion, hstage]

theorem Watched.Safe.leave (h : w.Safe) :
    ({ strategy := w.strategy.set t { w.strategy.infos t with
        localEpoch := none
        stage := .outside }
       stays := update w.stays t (w.stays t + 1) } : Watched n ν).Safe := by
  set info : Info (Retirement n ν) := { w.strategy.infos t with
    localEpoch := none
    stage := .outside } with hinfo
  have hlists : ∀ a, ((w.strategy.set t info).infos a).freeLists =
      (w.strategy.infos a).freeLists := by
    intro a
    by_cases ha : a = t
    · subst ha
      simp [hinfo]
    · rw [set_infos_of_ne _ _ ha]
  refine ⟨fun a => ?_, fun a l hl => ?_, fun a e r hr b k hb => ?_, fun a e r hr b hb => ?_⟩
  · by_cases ha : a = t
    · subst ha
      rw [set_infos_self]
      rfl
    · simpa [set_infos_of_ne _ _ ha] using h.staged a
  · by_cases ha : a = t
    · subst ha
      simp [hinfo] at hl
    · exact h.near a l (by simpa [set_infos_of_ne _ _ ha] using hl)
  · have hle := h.stays a e r (by rwa [hlists] at hr) b k hb
    by_cases hbt : b = t
    · subst hbt
      exact hle.trans (by simp)
    · simpa [update_of_ne hbt] using hle
  · rw [hlists] at hr
    by_cases hbt : b = t
    · subst hbt
      have hle := h.stays a e r hr b (w.stays b + 1) (by simpa [Watched.Holds] using hb)
      omega
    · obtain ⟨l, hl, hk⟩ := h.kept a e r hr b (by simpa [Watched.Holds, update_of_ne hbt] using hb)
      refine ⟨l, by simpa [set_infos_of_ne _ _ hbt] using hl, ?_⟩
      by_cases ha : a = t
      · subst ha
        rw [set_infos_self, set_currentEpoch]
        exact hk.of_stage rfl nofun
      · simpa [set_infos_of_ne _ _ ha] using hk

theorem Watched.Safe.step (h : w.Safe) {c : Fin n × Act ν} {freed : List (Retirement n ν)}
    {w' : Watched n ν} (hcond : w.KeepsUp c) (hstep : w.step c = .ok (freed, w')) :
    w'.Safe := by
  obtain ⟨t, act⟩ := c
  obtain ⟨⟨freed', strategy⟩, hs, hret⟩ := bind_eq_ok.mp hstep
  cases hret
  cases act with
  | enter =>
    simp only [Watched.act, Strategy.step, Strategy.enterStep] at hs
    split at hs
    · next hstage =>
      cases hs
      exact h.load hstage
    · next epoch hstage =>
      cases hs
      exact h.free hstage
    · next epoch hstage =>
      cases hs
      simp only [Watched.KeepsUp, hstage] at hcond
      exact h.announce hstage hcond
    · next epoch hstage =>
      cases hs
      refine h.scan hstage ?_
      split
      · exact .inl rfl
      · exact .inr rfl
    · next epoch hstage =>
      have hpass := h.pass hstage
      cases hs
      unfold Strategy.compareExchange
      split
      · next heq =>
        obtain rfl : w.strategy.currentEpoch = epoch := heq
        refine hpass.advance fun a => ?_
        have hne : (w.strategy.infos a).localEpoch ≠
            some (previousEpoch w.strategy.currentEpoch) := by
          simp only [Watched.KeepsUp, hstage] at hcond
          exact hcond trivial a
        by_cases ha : a = t
        · subst ha
          simpa using hne
        · simpa [set_infos_of_ne _ _ ha] using hne
      · exact hpass
    · cases hs
  | scheduleForDeletion node =>
    obtain ⟨epoch, hstage, hlocal, -, rfl⟩ := step_scheduleForDeletion hs
    exact h.retire hstage hlocal node
  | leave =>
    obtain ⟨-, -, rfl⟩ := step_leave hs
    exact h.leave

theorem Watched.Safe.freed (h : w.Safe) {c : Fin n × Act ν} {freed : List (Retirement n ν)}
    {w' : Watched n ν} (hstep : w.step c = .ok (freed, w')) {r : Retirement n ν}
    (hr : r ∈ freed) (t : Fin n) : ¬ w.Holds t r := by
  intro ht
  obtain ⟨⟨freed', strategy⟩, hs, hret⟩ := bind_eq_ok.mp hstep
  cases hret
  obtain ⟨epoch, hstage, hprev, hmem⟩ := step_freed hs hr
  obtain ⟨l, -, hk⟩ := h.kept _ _ _ hmem t ht
  exact hprev (hk.loaded hstage)

end Invariant

section Runs

variable {ν : Type}

def Watched.FreesOnlyLeft (w : Watched n ν) : Prop :=
  ∀ c freed w', w.step c = .ok (freed, w') → ∀ r ∈ freed, ∀ t, ¬ w.Holds t r

/-- As long as no announced epoch falls two behind, a node is freed only after every thread that
was in a critical section at its retirement has left it. -/
theorem freesOnlyLeft_of_keepsUp {acts : List (Fin n × Act ν)} {rs : List (List (Retirement n ν))}
    {w : Watched n ν} (hmeets : Meets Watched.step Watched.KeepsUp {} acts)
    (hrun : run Watched.step {} acts = .ok (rs, w)) : w.FreesOnlyLeft := by
  intro c freed w' hstep r hr t
  have hsafe : w.Safe :=
    run_invariant (fun _ _ _ _ hinv hcond hs => hinv.step hcond hs) .initial hmeets hrun
  exact hsafe.freed hstep hr t

def enters (t : Fin n) (count : ℕ) : List (Fin n × Act ν) := List.replicate count (t, .enter)

def retires (t : Fin n) (first count : ℕ) : List (Fin n × Act ℕ) :=
  (List.range' first count).map fun node => (t, .scheduleForDeletion node)

def advances (t : Fin n) (first : ℕ) : List (Fin n × Act ℕ) :=
  enters t 4 ++ retires t first 64 ++ [(t, .leave)] ++ enters t 5

def staleRun : List (Fin 2 × Act ℕ) :=
  enters 1 1 ++ advances 0 0 ++ [(0, .leave)] ++ advances 0 64 ++ enters 1 3 ++
    retires 0 256 1 ++ [(0, .leave)] ++ advances 0 128 ++ [(0, .leave)] ++
    advances 0 192 ++ [(0, .leave)] ++ enters 0 1

theorem staleRun_eq : (run Watched.step {} staleRun >>= fun x =>
    x.2.step (0, .enter) >>= fun y =>
      .ok (y.1.any fun r => r.node = 256 ∧ r.guests 1 = some (x.2.stays 1))) = .ok true := by
  decide +kernel

theorem not_freesOnlyLeft_stale : ∃ rs w, run Watched.step ({} : Watched 2 ℕ) staleRun = .ok (rs, w) ∧
    ¬ w.FreesOnlyLeft := by
  obtain ⟨⟨rs, w⟩, hrun, hnext⟩ := bind_eq_ok.mp staleRun_eq
  obtain ⟨⟨freed, w'⟩, hstep, hany⟩ := bind_eq_ok.mp hnext
  refine ⟨rs, w, hrun, fun hsafe => ?_⟩
  obtain ⟨r, hr, hheld⟩ := List.any_eq_true.mp (Except.ok.inj hany)
  exact hsafe (0, .enter) freed w' hstep r hr 1 (of_decide_eq_true hheld).2

def timelyRun : List (Fin 2 × Act ℕ) :=
  enters 1 4 ++ advances 0 0 ++ [(0, .leave), (1, .leave)] ++ advances 0 64 ++ [(0, .leave)] ++
    advances 0 128 ++ [(0, .leave)] ++ enters 0 1

theorem timelyRun_eq : meets Watched.step Watched.KeepsUp ({} : Watched 2 ℕ) timelyRun = true ∧
    ((run Watched.step ({} : Watched 2 ℕ) timelyRun >>= fun x =>
      x.2.step (0, .enter) >>= fun y => .ok (y.1.map Retirement.node)) = .ok (List.range 64)) := by
  decide +kernel

theorem freesOnlyLeft_timely :
    Meets Watched.step Watched.KeepsUp ({} : Watched 2 ℕ) timelyRun ∧
      ∃ rs w freed w', run Watched.step ({} : Watched 2 ℕ) timelyRun = .ok (rs, w) ∧
        w.step (0, .enter) = .ok (freed, w') ∧ freed.map Retirement.node = List.range 64 ∧
        w.FreesOnlyLeft := by
  have hmeets := meets_iff.mp timelyRun_eq.1
  obtain ⟨⟨rs, w⟩, hrun, hnext⟩ := bind_eq_ok.mp timelyRun_eq.2
  obtain ⟨⟨freed, w'⟩, hstep, hfreed⟩ := bind_eq_ok.mp hnext
  exact ⟨hmeets, rs, w, freed, w', hrun, hstep, Except.ok.inj hfreed,
    freesOnlyLeft_of_keepsUp hmeets hrun⟩

end Runs

end LearnedIndexFramework.Lippol.Epoch
