import LearnedIndexFramework.Lippol.Epoch

/-! Several objects of `LIPP` with one key and payload type.  They share the static instance of
the reclamation strategy, which keeps the pointer of the object that was constructed first. -/

namespace LearnedIndexFramework.Lippol.Epoch

open Lib Function

variable {n : ℕ} {α : Type}

section Sequential

def Strategy.enterCriticalSection (s : Strategy n α) (t : Fin n) :
    Except Unit (List α × Strategy n α) := do
  let (_, s) ← s.enterStep t
  let (freed, s) ← s.enterStep t
  let (_, s) ← s.enterStep t
  let (_, s) ← s.enterStep t
  if (s.infos t).stage = .inside then return (freed, s)
  let (_, s) ← s.enterStep t
  return (freed, s)

def Strategy.scheduleAll (s : Strategy n α) (t : Fin n) (entries : List α) :
    Except Unit (Strategy n α) :=
  entries.foldlM (fun s entry => (s.step t (.scheduleForDeletion entry)).map Prod.snd) s

def Strategy.due (s : Strategy n α) (t : Fin n) : List α :=
  if (s.infos t).previouslyAccessedEpoch = some s.currentEpoch then []
  else (s.infos t).freeLists s.currentEpoch

def Strategy.entered (s : Strategy n α) (t : Fin n) : Strategy n α :=
  let info := ((s.infos t).freeForEpoch s.currentEpoch).2
  let s' := s.set t { info with localEpoch := some s.currentEpoch, stage := .inside }
  if info.threadWantsToAdvance && s'.canAdvance s.currentEpoch then
    { s' with currentEpoch := nextEpoch s.currentEpoch }
  else s'

@[simp] theorem set_set (s : Strategy n α) (t : Fin n) (i j : Info α) :
    (s.set t i).set t j = s.set t j := by
  simp [Strategy.set]

theorem canAdvance_set_stage (s : Strategy n α) (t : Fin n) (info : Info α) (stage : Stage)
    (epoch : Fin 3) :
    (s.set t { info with stage }).canAdvance epoch = (s.set t info).canAdvance epoch := by
  refine decide_eq_decide.mpr (forall_congr' fun a => ?_)
  by_cases ha : a = t
  · subst ha
    simp
  · simp [set_infos_of_ne _ _ ha]

theorem freeForEpoch_fst (s : Strategy n α) (t : Fin n) :
    ((s.infos t).freeForEpoch s.currentEpoch).1 = s.due t := by
  unfold Info.freeForEpoch Strategy.due
  split <;> rfl

@[simp] theorem freeForEpoch_stage (info : Info α) (epoch : Fin 3) :
    (info.freeForEpoch epoch).2.stage = .freed epoch := by
  unfold Info.freeForEpoch
  split <;> rfl

theorem enterCriticalSection_eq {s : Strategy n α} {t : Fin n}
    (hout : (s.infos t).stage = .outside) :
    s.enterCriticalSection t = .ok (s.due t, s.entered t) := by
  have hfree : Info.freeForEpoch { s.infos t with stage := .loaded s.currentEpoch }
      s.currentEpoch = (s.infos t).freeForEpoch s.currentEpoch := by
    unfold Info.freeForEpoch
    split <;> rfl
  simp only [Strategy.enterCriticalSection, Strategy.enterStep, bind, Except.bind, hout,
    set_infos_self, set_set, hfree, freeForEpoch_stage, freeForEpoch_fst, Strategy.entered]
  generalize ((s.infos t).freeForEpoch s.currentEpoch).2 = info
  have hscan := canAdvance_set_stage s t { info with
    localEpoch := some s.currentEpoch
    stage := .inside } (.announced s.currentEpoch) s.currentEpoch
  simp only [hscan]
  cases info.threadWantsToAdvance && (s.set t { info with
    localEpoch := some s.currentEpoch
    stage := .inside }).canAdvance s.currentEpoch with
  | true => simp [Strategy.compareExchange, pure, Except.pure]
  | false => rfl

def Strategy.All (p : α → Prop) (s : Strategy n α) : Prop :=
  ∀ t epoch, ∀ entry ∈ (s.infos t).freeLists epoch, p entry

def Strategy.Quiet (s : Strategy n α) : Prop := ∀ t, (s.infos t).stage = .outside

variable {p : α → Prop} {s s' : Strategy n α} {t : Fin n} {entries : List α}

theorem Strategy.All.set (h : s.All p) {info : Info α}
    (hinfo : ∀ epoch, ∀ entry ∈ info.freeLists epoch, p entry) : (s.set t info).All p := by
  intro a epoch entry hentry
  by_cases ha : a = t
  · subst ha
    rw [set_infos_self] at hentry
    exact hinfo epoch entry hentry
  · rw [set_infos_of_ne _ _ ha] at hentry
    exact h a epoch entry hentry

theorem Strategy.All.due (h : s.All p) (t : Fin n) : ∀ entry ∈ s.due t, p entry := by
  intro entry hentry
  unfold Strategy.due at hentry
  split at hentry
  · cases hentry
  · exact h t _ entry hentry

theorem Strategy.All.entered (h : s.All p) (t : Fin n) : (s.entered t).All p := by
  have hset : (s.set t { ((s.infos t).freeForEpoch s.currentEpoch).2 with
      localEpoch := some s.currentEpoch, stage := .inside }).All p := by
    refine h.set fun epoch entry hentry => ?_
    unfold Info.freeForEpoch at hentry
    split at hentry
    · exact h t epoch entry hentry
    · by_cases he : epoch = s.currentEpoch
      · subst he
        simp at hentry
      · exact h t epoch entry (by simpa [update_of_ne he] using hentry)
  unfold Strategy.entered
  dsimp only
  split
  · exact hset
  · exact hset

theorem entered_infos_of_ne {a : Fin n} (ha : a ≠ t) :
    (s.entered t).infos a = s.infos a := by
  unfold Strategy.entered
  dsimp only
  split
  · exact set_infos_of_ne _ _ ha
  · exact set_infos_of_ne _ _ ha

theorem Strategy.All.scheduleAll (h : s.All p) (hentries : ∀ entry ∈ entries, p entry)
    (hs : s.scheduleAll t entries = .ok s') :
    s'.All p ∧ ∀ a ≠ t, s'.infos a = s.infos a := by
  induction entries generalizing s with
  | nil =>
    cases hs
    exact ⟨h, fun a _ => rfl⟩
  | cons entry entries ih =>
    rw [Strategy.scheduleAll, List.foldlM_cons] at hs
    obtain ⟨s₁, hfirst, hrest⟩ := bind_eq_ok.mp hs
    cases hstep : s.step t (.scheduleForDeletion entry) with
    | error e =>
      rw [hstep] at hfirst
      cases hfirst
    | ok x =>
      rw [hstep] at hfirst
      cases hfirst
      obtain ⟨epoch, -, -, -, hs₁⟩ := step_scheduleForDeletion hstep
      have hall : x.2.All p := by
        rw [hs₁]
        refine h.set fun e r hr => ?_
        by_cases he : e = epoch
        · subst he
          have hr : r ∈ (s.infos t).freeLists e ∨ r = entry := by
            simpa [Info.scheduleForDeletion] using hr
          rcases hr with hr | rfl
          · exact h t e r hr
          · exact hentries r List.mem_cons_self
        · exact h t e r (by simpa [Info.scheduleForDeletion, update_of_ne he] using hr)
      obtain ⟨hall', hframe⟩ := ih hall (fun r hr => hentries r (List.mem_cons_of_mem _ hr)) hrest
      refine ⟨hall', fun a ha => (hframe a ha).trans ?_⟩
      rw [hs₁, set_infos_of_ne _ _ ha]

end Sequential

section OneThread

variable {P : Type}

def oneThread (ebr : Ebr fp P) (localEpoch : Option (Fin 3)) (stage : Stage) :
    Strategy 1 (Node fp P) where
  currentEpoch := ebr.currentEpoch
  infos _ := {
    freeLists := ebr.freeLists
    localEpoch
    previouslyAccessedEpoch := ebr.previouslyAccessedEpoch
    threadWantsToAdvance := ebr.threadWantsToAdvance
    stage }

theorem set_one (s : Strategy 1 α) (info : Info α) :
    s.set 0 info = { s with infos := fun _ => info } := by
  have hinfos : update s.infos 0 info = fun _ => info := by
    funext a
    rw [Subsingleton.elim a 0, update_self]
  rw [Strategy.set, hinfos]

theorem canAdvance_one {s : Strategy 1 α} {epoch : Fin 3}
    (hlocal : (s.infos 0).localEpoch = some epoch) : s.canAdvance epoch = true := by
  have hne : ∀ epoch : Fin 3, epoch ≠ previousEpoch epoch := by decide
  refine decide_eq_true fun t => ?_
  rw [Subsingleton.elim t 0, hlocal]
  exact fun heq => hne epoch (Option.some.inj heq)

theorem enter_oneThread (t : Lipp fp P) :
    (oneThread t.ebr none .outside).enterCriticalSection 0 =
      .ok ((oneThread t.ebr none .outside).due 0,
        oneThread t.enter.1.ebr (some t.enter.2) .inside) ∧
    t.enter.1.pendingTwo =
      freeForEpoch ((oneThread t.ebr none .outside).due 0) t.pendingTwo := by
  rw [enterCriticalSection_eq rfl]
  unfold Strategy.entered Strategy.due Info.freeForEpoch Lipp.enter
  simp only [set_one]
  rw [canAdvance_one rfl]
  by_cases hprev : t.ebr.previouslyAccessedEpoch = some t.ebr.currentEpoch
  · cases hwants : t.ebr.threadWantsToAdvance with
    | true => simp [oneThread, hprev, hwants, freeForEpoch, nextEpoch]
    | false => simp [oneThread, hprev, hwants, freeForEpoch]
  · simp [oneThread, hprev]

theorem scheduleForDeletion_oneThread (ebr : Ebr fp P) (epoch : Fin 3) (node : Node fp P) :
    (oneThread ebr (some epoch) .inside).step 0 (.scheduleForDeletion node) =
      .ok ([], oneThread (ebr.scheduleForDeletion epoch node) (some epoch) .inside) := by
  simp [Strategy.step, oneThread, Info.scheduleForDeletion, Ebr.scheduleForDeletion, set_one]

end OneThread

structure Retired (ν : Type) where
  node : ν
  isTwo : Bool
  owner : ℕ
  deriving DecidableEq

/-- An object of `LIPP`: its address, whether it is not yet destroyed, and the nodes that
`freeForEpoch` pushed to its `pending_two`. -/
structure Object (ν : Type) where
  address : ℕ
  alive : Bool := true
  recycled : List (Retired ν) := []

/-- The objects in the order of their construction, the pointer `tree`, and the state of the
static instance. -/
structure World (n : ℕ) (ν : Type) where
  objects : List (Object ν) := []
  tree : Option ℕ := none
  strategy : Strategy n (Retired ν) := {}

inductive Event (n : ℕ) (ν : Type)
  | construct (address : ℕ)
  | destroy (object : ℕ)
  | call (object : ℕ) (thread : Fin n) (nodes : List (ν × Bool))

inductive WorldFault
  | refused
  | dangling
  deriving DecidableEq

structure Recycling (ν : Type) where
  retired : Retired ν
  tree : ℕ
  called : ℕ

variable {ν : Type}

def World.liveAt (w : World n ν) (address : ℕ) : Option ℕ :=
  w.objects.findIdx? fun object => object.alive && object.address = address

def World.live (w : World n ν) (object : ℕ) : Bool :=
  ((w.objects[object]?).map Object.alive).getD false

def Object.push (freed : List (Retired ν)) (object : Object ν) : Object ν :=
  { object with recycled := object.recycled ++ freed.filter Retired.isTwo }

def World.recycle (w : World n ν) (called : ℕ) (freed : List (Retired ν)) :
    Except WorldFault (List (Recycling ν) × World n ν) :=
  if freed = [] then .ok ([], w)
  else
    match w.tree.bind w.liveAt with
    | none => .error .dangling
    | some tree => .ok (freed.map fun retired => { retired, tree, called },
        { w with objects := w.objects.modify tree (Object.push freed) })

/-- A call: the guard enters, the nodes are retired, the guard leaves. -/
def World.call (w : World n ν) (object : ℕ) (t : Fin n) (nodes : List (ν × Bool)) :
    Except WorldFault (List (Recycling ν) × World n ν) :=
  if w.live object then
    match w.strategy.enterCriticalSection t with
    | .error () => .error .refused
    | .ok (freed, s) => do
      let (reply, w) ← w.recycle object freed
      match s.scheduleAll t (nodes.map fun x => { node := x.1, isTwo := x.2, owner := object }) with
      | .error () => .error .refused
      | .ok s =>
        match s.step t .leave with
        | .error () => .error .refused
        | .ok (_, s) => return (reply, { w with strategy := s })
  else .error .refused

def World.step (w : World n ν) : Event n ν → Except WorldFault (List (Recycling ν) × World n ν)
  | .construct address =>
    if w.liveAt address = none then .ok ([], { w with
      objects := w.objects ++ [{ address }]
      tree := w.tree.or (some address) })
    else .error .refused
  | .destroy object =>
    if w.live object then .ok ([], { w with
      objects := w.objects.modify object fun o => { o with alive := false } })
    else .error .refused
  | .call object t nodes => w.call object t nodes

section Shared

/-- What the event frees goes to the object that is called, through which it was retired. -/
def World.Isolated (w : World n ν) (e : Event n ν) : Prop :=
  w.step e ≠ .error .dangling ∧ ∀ reply w', w.step e = .ok (reply, w') →
    ∀ x ∈ reply, x.tree = x.called ∧ x.retired.owner = x.called

/-- Calls that retire or free nodes are made on one object only, and it lies where the object
lay that was constructed first. -/
def World.OnlyThrough (o : ℕ) (w : World n ν) : Event n ν → Prop
  | .call object t nodes => nodes ≠ [] ∨ w.strategy.due t ≠ [] →
      object = o ∧ (w.objects[object]?).map Object.address = w.tree
  | _ => True

instance (o : ℕ) (w : World n ν) (e : Event n ν) : Decidable (w.OnlyThrough o e) :=
  match e with
  | .construct _ => inferInstanceAs (Decidable True)
  | .destroy _ => inferInstanceAs (Decidable True)
  | .call _ _ _ => inferInstanceAs (Decidable (_ → _))

structure World.Shared (o : ℕ) (w : World n ν) : Prop where
  apart : ∀ (i j : ℕ) (a b : Object ν), w.objects[i]? = some a → w.objects[j]? = some b →
    a.alive → b.alive → a.address = b.address → i = j
  quiet : w.strategy.Quiet
  owner : w.strategy.All fun r => r.owner = o
  recycled : ∀ (i : ℕ) (a : Object ν), w.objects[i]? = some a → ∀ r ∈ a.recycled, r.owner = i

variable {o : ℕ} {w w' : World n ν} {e : Event n ν} {reply : List (Recycling ν)}

theorem World.Shared.initial : World.Shared o ({} : World n ν) where
  apart := by simp
  quiet _ := rfl
  owner := nofun
  recycled := by simp

theorem World.live_iff {i : ℕ} : w.live i = true ↔ ∃ a, w.objects[i]? = some a ∧ a.alive := by
  unfold World.live
  cases w.objects[i]? <;> simp

theorem World.Shared.liveAt (h : w.Shared o) {i : ℕ} {a : Object ν}
    (hi : w.objects[i]? = some a) (halive : a.alive) : w.liveAt a.address = some i := by
  unfold World.liveAt
  cases hfind : w.objects.findIdx? fun object => object.alive && object.address = a.address with
  | none =>
    have hnone := List.findIdx?_eq_none_iff.mp hfind a (List.mem_of_getElem? hi)
    simp [halive] at hnone
  | some j =>
    obtain ⟨hj, hprop, -⟩ := List.findIdx?_eq_some_iff_getElem.mp hfind
    simp only [Bool.and_eq_true, decide_eq_true_eq] at hprop
    rw [h.apart j i _ a (List.getElem?_eq_getElem hj) hi hprop.1 halive hprop.2]

theorem World.Shared.modify (h : w.Shared o) (i : ℕ) {f : Object ν → Object ν}
    (haddress : ∀ a, (f a).address = a.address) (halive : ∀ a, (f a).alive → a.alive)
    (hrecycled : ∀ a, (∀ r ∈ a.recycled, r.owner = i) → ∀ r ∈ (f a).recycled, r.owner = i) :
    World.Shared o { w with objects := w.objects.modify i f } := by
  have hold : ∀ (j : ℕ) (b : Object ν), (w.objects.modify i f)[j]? = some b →
      ∃ a, w.objects[j]? = some a ∧ (b = a ∨ (i = j ∧ b = f a)) := by
    intro j b hb
    rw [List.getElem?_modify] at hb
    obtain ⟨a, ha, rfl⟩ := Option.map_eq_some_iff.mp hb
    refine ⟨a, ha, ?_⟩
    split
    · next hij => exact .inr ⟨hij, rfl⟩
    · exact .inl rfl
  refine ⟨fun j k a b ha hb halivea haliveb hab => ?_, h.quiet, h.owner, fun j b hb r hr => ?_⟩
  · obtain ⟨a', ha', hfa⟩ := hold j a ha
    obtain ⟨b', hb', hfb⟩ := hold k b hb
    refine h.apart j k a' b' ha' hb' ?_ ?_ ?_
    · rcases hfa with rfl | ⟨-, rfl⟩
      · exact halivea
      · exact halive a' halivea
    · rcases hfb with rfl | ⟨-, rfl⟩
      · exact haliveb
      · exact halive b' haliveb
    · rcases hfa with rfl | ⟨-, rfl⟩ <;> rcases hfb with rfl | ⟨-, rfl⟩ <;>
        simpa [haddress] using hab
  · obtain ⟨a, ha, rfl | ⟨rfl, rfl⟩⟩ := hold j b hb
    · exact h.recycled j b ha r hr
    · exact hrecycled a (h.recycled i a ha) r hr

theorem World.Shared.recycle (h : w.Shared o) {object : ℕ} {a : Object ν}
    (hobject : w.objects[object]? = some a) (halive : a.alive) {freed : List (Retired ν)}
    (hfreed : ∀ r ∈ freed, r.owner = o)
    (hcond : freed ≠ [] → object = o ∧ some a.address = w.tree) :
    ∃ reply w', w.recycle object freed = .ok (reply, w') ∧ w'.Shared o ∧
      w'.strategy = w.strategy ∧
      ∀ x ∈ reply, x.tree = x.called ∧ x.retired.owner = x.called := by
  by_cases hnil : freed = []
  · exact ⟨[], w, if_pos hnil, h, rfl, nofun⟩
  · obtain ⟨rfl, htree⟩ := hcond hnil
    have hlive : w.tree.bind w.liveAt = some object := by
      rw [← htree]
      exact h.liveAt hobject halive
    refine ⟨freed.map fun retired => { retired, tree := object, called := object },
      { w with objects := w.objects.modify object (Object.push freed) }, ?_,
      h.modify object (fun _ => rfl) (fun _ hf => hf) ?_, rfl, ?_⟩
    · rw [World.recycle, if_neg hnil, hlive]
    · intro b hb r hr
      rcases List.mem_append.mp hr with hr | hr
      · exact hb r hr
      · exact hfreed r (List.mem_of_mem_filter hr)
    · intro x hx
      obtain ⟨r, hr, rfl⟩ := List.mem_map.mp hx
      exact ⟨rfl, hfreed r hr⟩

theorem World.Shared.call (h : w.Shared o) {object : ℕ} {t : Fin n} {nodes : List (ν × Bool)}
    (hcond : w.OnlyThrough o (.call object t nodes)) :
    w.call object t nodes ≠ .error .dangling ∧
      ∀ reply w', w.call object t nodes = .ok (reply, w') → w'.Shared o ∧
        ∀ x ∈ reply, x.tree = x.called ∧ x.retired.owner = x.called := by
  unfold World.call
  by_cases hlive : w.live object = true
  · obtain ⟨a, hobject, halive⟩ := World.live_iff.mp hlive
    obtain ⟨reply, w₁, hrecycle, hshared, hstrategy, hreply⟩ := h.recycle hobject halive
      (h.owner.due t) fun hdue => by simpa [hobject] using hcond (.inr hdue)
    rw [if_pos hlive, enterCriticalSection_eq (h.quiet t)]
    simp only [hrecycle, bind, Except.bind]
    have howner : ∀ r ∈ nodes.map fun x => ({ node := x.1, isTwo := x.2, owner := object } : Retired ν),
        r.owner = o := by
      intro r hr
      obtain ⟨x, hx, rfl⟩ := List.mem_map.mp hr
      exact (hcond (.inl (List.ne_nil_of_mem hx))).1
    split
    · exact ⟨nofun, nofun⟩
    · next s hs =>
      obtain ⟨hall, hframe⟩ := (h.owner.entered t).scheduleAll howner hs
      split
      · exact ⟨nofun, nofun⟩
      · next freed s' hleave =>
        obtain ⟨-, -, rfl⟩ := step_leave hleave
        refine ⟨nofun, fun reply' w' hret => ?_⟩
        cases hret
        refine ⟨⟨hshared.apart, fun b => ?_, hall.set (hall t), hshared.recycled⟩, hreply⟩
        by_cases hb : b = t
        · subst hb
          simp
        · rw [set_infos_of_ne _ _ hb, hframe b hb, entered_infos_of_ne hb]
          exact h.quiet b
  · rw [if_neg hlive]
    exact ⟨nofun, nofun⟩

theorem World.Shared.construct (h : w.Shared o) {address : ℕ} (hfree : w.liveAt address = none) :
    World.Shared o { w with
      objects := w.objects ++ [{ address }]
      tree := w.tree.or (some address) } := by
  have hnew : ∀ (i : ℕ) (a : Object ν), w.objects[i]? = some a → a.alive → a.address ≠ address := by
    rintro i a hi halive rfl
    rw [h.liveAt hi halive] at hfree
    cases hfree
  have hold : ∀ (i : ℕ) (a : Object ν), (w.objects ++ [{ address := address }])[i]? = some a →
      w.objects[i]? = some a ∨ (i = w.objects.length ∧ a = { address := address }) := by
    intro i a hi
    rcases Nat.lt_or_ge i w.objects.length with hlt | hge
    · left
      rwa [List.getElem?_append_left hlt] at hi
    · right
      rw [List.getElem?_append_right hge, List.getElem?_singleton] at hi
      split at hi
      · cases hi
        exact ⟨by omega, rfl⟩
      · cases hi
  refine ⟨fun i j a b hi hj ha hb hab => ?_, h.quiet, h.owner, fun i a hi r hr => ?_⟩
  · rcases hold i a hi with hi | ⟨rfl, rfl⟩ <;> rcases hold j b hj with hj | ⟨rfl, rfl⟩
    · exact h.apart i j a b hi hj ha hb hab
    · exact absurd hab (hnew i a hi ha)
    · exact absurd hab.symm (hnew j b hj hb)
    · rfl
  · rcases hold i a hi with hi | ⟨rfl, rfl⟩
    · exact h.recycled i a hi r hr
    · cases hr

theorem World.Shared.step (h : w.Shared o) (hcond : w.OnlyThrough o e)
    (hstep : w.step e = .ok (reply, w')) : w'.Shared o := by
  cases e with
  | construct address =>
    simp only [World.step] at hstep
    split at hstep
    · next hfree =>
      cases hstep
      exact h.construct hfree
    · cases hstep
  | destroy object =>
    simp only [World.step] at hstep
    split at hstep
    · cases hstep
      exact h.modify object (fun _ => rfl) nofun fun _ ha => ha
    · cases hstep
  | call object t nodes => exact ((h.call hcond).2 reply w' hstep).1

theorem World.Shared.isolated (h : w.Shared o) (hcond : w.OnlyThrough o e) : w.Isolated e := by
  cases e with
  | construct address =>
    simp only [World.Isolated, World.step]
    split
    · refine ⟨nofun, fun reply w' hret => ?_⟩
      cases hret
      exact nofun
    · exact ⟨nofun, nofun⟩
  | destroy object =>
    simp only [World.Isolated, World.step]
    split
    · refine ⟨nofun, fun reply w' hret => ?_⟩
      cases hret
      exact nofun
    · exact ⟨nofun, nofun⟩
  | call object t nodes =>
    obtain ⟨hdangling, hok⟩ := h.call hcond
    exact ⟨hdangling, fun reply w' hstep => (hok reply w' hstep).2⟩

end Shared

section Runs

/-- As long as only one object, at the address of the first, retires and frees nodes, its nodes
come back to itself. -/
theorem isolated_of_onlyThrough {o : ℕ} {es : List (Event n ν)} {e : Event n ν}
    {rs : List (List (Recycling ν))} {w : World n ν}
    (hmeets : Meets World.step (World.OnlyThrough o) {} es)
    (hrun : run World.step {} es = .ok (rs, w)) (hcond : w.OnlyThrough o e) :
    w.Isolated e ∧
      ∀ (i : ℕ) (a : Object ν), w.objects[i]? = some a → ∀ r ∈ a.recycled, r.owner = i := by
  have hshared : w.Shared o :=
    run_invariant (fun _ _ _ _ hinv hc hs => hinv.step hc hs) .initial hmeets hrun
  exact ⟨hshared.isolated hcond, hshared.recycled⟩

def round (object first : ℕ) : List (Event 1 ℕ) :=
  (List.range' first 64).map (fun node => .call object 0 [(node, true)]) ++ [.call object 0 []]

def twoRuns : List (Event 1 ℕ) :=
  [.construct 100, .call 0 0 [], .destroy 0, .construct 200] ++
    round 1 0 ++ round 1 64 ++ round 1 128

def World.dangles (w : World n ν) (e : Event n ν) : Bool :=
  match w.step e with
  | .error .dangling => true
  | _ => false

theorem twoRuns_eq : (run World.step {} twoRuns >>= fun x => .ok (x.2.dangles (.call 1 0 []))) =
    .ok true := by
  decide +kernel

theorem not_isolated_twoRuns : ∃ rs w, run World.step ({} : World 1 ℕ) twoRuns = .ok (rs, w) ∧
    ¬ w.Isolated (.call 1 0 []) := by
  obtain ⟨⟨rs, w⟩, hrun, hdangles⟩ := bind_eq_ok.mp twoRuns_eq
  refine ⟨rs, w, hrun, fun hisolated => hisolated.1 ?_⟩
  have hdangles := Except.ok.inj hdangles
  unfold World.dangles at hdangles
  split at hdangles
  · assumption
  · cases hdangles

def oneRun : List (Event 1 ℕ) := .construct 100 :: round 0 0 ++ round 0 64 ++ round 0 128

theorem oneRun_eq : meets World.step (World.OnlyThrough 0) ({} : World 1 ℕ) oneRun = true ∧
    (run World.step ({} : World 1 ℕ) oneRun >>= fun x => x.2.step (.call 0 0 []) >>= fun y =>
      .ok (decide (x.2.OnlyThrough 0 (.call 0 0 [])), y.1.map fun r => r.retired.node)) =
      .ok (true, List.range 64) := by
  decide +kernel

theorem isolated_oneRun : ∃ rs w reply w',
    Meets World.step (World.OnlyThrough 0) ({} : World 1 ℕ) oneRun ∧
      run World.step ({} : World 1 ℕ) oneRun = .ok (rs, w) ∧
      w.step (.call 0 0 []) = .ok (reply, w') ∧
      (reply.map fun r => r.retired.node) = List.range 64 ∧ w.Isolated (.call 0 0 []) := by
  have hmeets := meets_iff.mp oneRun_eq.1
  obtain ⟨⟨rs, w⟩, hrun, hnext⟩ := bind_eq_ok.mp oneRun_eq.2
  obtain ⟨⟨reply, w'⟩, hstep, hret⟩ := bind_eq_ok.mp hnext
  obtain ⟨hcond, hnodes⟩ := Prod.ext_iff.mp (Except.ok.inj hret)
  exact ⟨rs, w, reply, w', hmeets, hrun, hstep, hnodes,
    (isolated_of_onlyThrough hmeets hrun (of_decide_eq_true hcond)).1⟩

end Runs

end LearnedIndexFramework.Lippol.Epoch
