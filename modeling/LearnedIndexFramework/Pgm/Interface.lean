import LearnedIndexFramework.Lib.Run
import LearnedIndexFramework.Lib.Words
import LearnedIndexFramework.Pgm.Growth
import LearnedIndexFramework.Pgm.Range
import LearnedIndexFramework.Pgm.Scan
import Mathlib.Order.Fin.Basic

/-! Runs of the interface refine a map from keys to values. -/

namespace LearnedIndexFramework.Pgm

open Function Lib

variable {K V : Type}

inductive Call (K V : Type)
  | get (key : K)
  | put (key : K) (value : V)
  | update (key : K) (value : V)
  | remove (key : K)
  | scan (keyLowBound : K) (keyNum : ℕ)

/-- What a call returns: the value that `get` found, the `bool` of the others, the pairs that
`scan` writes, or the text of an exception. -/
inductive Reply (K V : Type)
  | get (value : Option V)
  | done (ok : Bool)
  | scan (result : List (K × V))
  | threw (what : String)
  deriving DecidableEq

def Call.key : Call K V → K
  | .get key | .put key _ | .update key _ | .remove key | .scan key _ => key

variable [LinearOrder K] [DecidableEq V] [Top V]

section Model

variable [BoundedOrder K] (search : List K → K → Except Stop (ℕ × ℕ))

def DynamicPgm.assign (t : DynamicPgm K V) (key : K) (value : V) :
    Except Stop (Reply K V × DynamicPgm K V) :=
  match t.insertOrAssign key value with
  | .ok t => .ok (.done true, t)
  | .error (.throws what) => .ok (.threw what, t)
  | .error e => .error e

def DynamicPgm.call (t : DynamicPgm K V) : Call K V → Except Stop (Reply K V × DynamicPgm K V)
  | .get key => do
    let value ← t.get search key
    return (.get value, t)
  | .put key value => t.assign key value
  | .update key value => t.assign key value
  | .remove key => do
    let t ← t.erase key
    return (.done true, t)
  | .scan keyLowBound keyNum => do
    let result ← t.scan search keyLowBound keyNum
    return (.scan result, t)

end Model

namespace Call

/-- What a call does to the map.  The reserved value is not stored, and an update of an absent key
is an insertion. -/
def apply (m : K → Option V) : Call K V → K → Option V
  | .put key value | .update key value =>
    if value = ⊤ then m else Function.update m key (some value)
  | .remove key => Function.update m key none
  | .get _ | .scan _ _ => m

def assigned (value : V) : Reply K V :=
  if value = ⊤ then .threw "The specified value is reserved and cannot be used." else .done true

def Answers (m : K → Option V) : Call K V → Reply K V → Prop
  | .get key, r => r = .get (m key)
  | .put _ value, r | .update _ value, r => r = assigned value
  | .remove _, r => r = .done true
  | .scan keyLowBound keyNum, r =>
    ∃ result, r = .scan result ∧ Lists m (keyLowBound ≤ ·) keyNum result

end Call

namespace DynamicPgm

variable [BoundedOrder K] {search : List K → K → Except Stop (ℕ × ℕ)} {t t' : DynamicPgm K V}
  {m : K → Option V} {inside : Set K} {key : K} {value : V} {limit n : ℕ} {newItem : Item K V}

structure Stores (inside : Set K) (t : DynamicPgm K V) (m : K → Option V) : Prop where
  valid : t.Valid
  mem : ∀ item, t.Holds item → item.first ∈ inside
  view_eq : ∀ k, view t.levels k = m k

omit [BoundedOrder K] in
theorem update_apply_eq (m : K → Option V) (item : Item K V) (k : K) :
    (if k = item.first then live (some item) else m k) =
      update m item.first (live (some item)) k := by
  by_cases hk : k = item.first
  · rw [if_pos hk, hk, update_self]
  · rw [if_neg hk, update_of_ne hk]

omit [BoundedOrder K] in
theorem Stores.insert (h : t.Stores inside m) {item : Item K V} (hkey : item.first ∈ inside) :
    ∃ t', t.insert item = .ok t' ∧ t'.Stores inside (update m item.first (live (some item))) := by
  obtain ⟨t', hinsert, hvalid, hview⟩ := insert_spec h.valid item
  refine ⟨t', hinsert, hvalid, fun item' hitem' => ?_, fun k => ?_⟩
  · rcases holds_insert hinsert hitem' with rfl | hitem'
    · exact hkey
    · exact h.mem item' hitem'
  · rw [hview k, h.view_eq, update_apply_eq]

omit [BoundedOrder K] in
theorem Stores.assign (h : t.Stores inside m) (hkey : key ∈ inside) (value : V) :
    ∃ t', t.assign key value = .ok (Call.assigned value, t') ∧
      t'.Stores inside (if value = ⊤ then m else update m key (some value)) := by
  by_cases hvalue : value = ⊤
  · refine ⟨t, ?_, by rwa [if_pos hvalue]⟩
    rw [DynamicPgm.assign, insertOrAssign, Item.ofPair, Call.assigned, if_pos hvalue, if_pos hvalue]
    rfl
  · obtain ⟨t', hinsert, hstores⟩ := @Stores.insert _ _ _ _ _ _ _ _ h ⟨key, value⟩ hkey
    rw [live_of_not_deleted (decide_eq_false hvalue)] at hstores
    refine ⟨t', ?_, by rwa [if_neg hvalue]⟩
    rw [DynamicPgm.assign, insertOrAssign, Item.ofPair, Call.assigned, if_neg hvalue, if_neg hvalue]
    simp only [bind, Except.bind, hinsert]

theorem Stores.call (h : t.Stores inside m) {c : Call K V} (hinside : ∀ k ∈ inside, k < ⊤)
    (hkey : c.key ∈ inside) (htotal : t.total ≤ limit)
    (hbrackets : t.minIndexLevel < t.usedLevels → Brackets inside limit search) :
    ∃ r t', t.call search c = .ok (r, t') ∧ c.Answers m r ∧ t'.Stores inside (c.apply m) := by
  have hview : view t.levels = m := funext h.view_eq
  have hsearch : t.Searchable inside limit search := ⟨hinside, h.mem, htotal, hbrackets⟩
  cases c with
  | get key =>
    have hget := get_eq h.valid hsearch hkey
    rw [h.view_eq] at hget
    exact ⟨_, t, bind_eq_ok.mpr ⟨_, hget, rfl⟩, rfl, h⟩
  | put key value =>
    obtain ⟨t', hassign, hstores⟩ := h.assign hkey value
    exact ⟨_, t', hassign, rfl, hstores⟩
  | update key value =>
    obtain ⟨t', hassign, hstores⟩ := h.assign hkey value
    exact ⟨_, t', hassign, rfl, hstores⟩
  | remove key =>
    obtain ⟨t', hinsert, hstores⟩ := @Stores.insert _ _ _ _ _ _ _ _ h (.ofKey key) hkey
    have hlive : live (some (Item.ofKey key : Item K V)) = none :=
      live_eq_none_iff.mpr (decide_eq_true rfl)
    rw [hlive] at hstores
    exact ⟨_, t', bind_eq_ok.mpr ⟨t', hinsert, rfl⟩, rfl, hstores⟩
  | scan keyLowBound keyNum =>
    obtain ⟨xs, hscan, hlists⟩ := scan_lists h.valid hsearch hkey keyNum
    exact ⟨_, t, bind_eq_ok.mpr ⟨xs, hscan, rfl⟩, ⟨xs, rfl, hview ▸ hlists⟩, h⟩

omit [BoundedOrder K] in
theorem stores_ofRange {keyValue : List (K × V)} (hload : Loadable keyValue)
    (hkeys : ∀ pair ∈ keyValue, pair.1 ∈ inside) :
    ∃ t, ofRange keyValue = .ok t ∧ t.Stores inside (firstPair keyValue) := by
  obtain ⟨t, hrun, hvalid, hholds, hview⟩ := ofRange_spec hload
  refine ⟨t, hrun, hvalid, fun item hitem => ?_, hview⟩
  obtain ⟨pair, hpair, -⟩ := Option.map_eq_some_iff.mp (hholds item hitem)
  have hkey : pair.1 = item.first := by simpa using List.find?_some hpair
  exact hkey ▸ hkeys pair (List.mem_of_find?_eq_some hpair)

section Run

omit [BoundedOrder K] in
theorem insert_sized (h : t.Valid) (hsized : t.Sized n) (hinsert : t.insert newItem = .ok t') :
    t'.Valid ∧ t'.Sized (n + 1) := by
  obtain ⟨t₁, hrun, hvalid, -⟩ := insert_spec h newItem
  obtain rfl := Except.ok.inj (hrun.symm.trans hinsert)
  exact ⟨hvalid, hsized.grow (insert_grows h hinsert)⟩

omit [BoundedOrder K] in
theorem assign_sized {r : Reply K V} (h : t.Valid) (hsized : t.Sized n)
    (hassign : t.assign key value = .ok (r, t')) : t'.Valid ∧ t'.Sized (n + 1) := by
  rw [assign] at hassign
  split at hassign
  case h_1 t₁ hinsert =>
    cases hassign
    obtain ⟨item, -, hinsert⟩ := bind_eq_ok.mp hinsert
    exact insert_sized h hsized hinsert
  case h_2 =>
    cases hassign
    exact ⟨h, hsized.mono⟩
  case h_3 => cases hassign

theorem call_sized {c : Call K V} {r : Reply K V} (h : t.Valid) (hsized : t.Sized n)
    (hcall : t.call search c = .ok (r, t')) : t'.Valid ∧ t'.Sized (n + 1) := by
  cases c with
  | get key =>
    obtain ⟨value, -, hret⟩ := bind_eq_ok.mp hcall
    cases hret
    exact ⟨h, hsized.mono⟩
  | put key value => exact assign_sized h hsized hcall
  | update key value => exact assign_sized h hsized hcall
  | remove key =>
    obtain ⟨t₁, hinsert, hret⟩ := bind_eq_ok.mp hcall
    cases hret
    exact insert_sized h hsized hinsert
  | scan keyLowBound keyNum =>
    obtain ⟨result, -, hret⟩ := bind_eq_ok.mp hcall
    cases hret
    exact ⟨h, hsized.mono⟩

theorem run_sized {calls : List (Call K V)} {replies : List (Reply K V)} (h : t.Valid)
    (hsized : t.Sized n) (hrun : run (call search) t calls = .ok (replies, t')) :
    t'.Valid ∧ t'.Sized (n + calls.length) := by
  induction calls generalizing t n replies with
  | nil =>
    cases hrun
    exact ⟨h, hsized⟩
  | cons c cs ih =>
    obtain ⟨⟨r, t₁⟩, hcall, hrest⟩ := bind_eq_ok.mp hrun
    obtain ⟨⟨rs, t₂⟩, hrun', hret⟩ := bind_eq_ok.mp hrest
    cases hret
    obtain ⟨hvalid, hsized'⟩ := call_sized h hsized hcall
    rw [List.length_cons, Nat.add_comm cs.length, ← Nat.add_assoc]
    exact ih hvalid hsized' hrun'

end Run

end DynamicPgm

variable [BoundedOrder K] {search : List K → K → Except Stop (ℕ × ℕ)} {inside : Set K} {limit : ℕ}
  {keyValue : List (K × V)}

theorem meets_of_keys {calls : List (Call K V)} {t : DynamicPgm K V} {n : ℕ} (hvalid : t.Valid)
    (hsized : t.Sized n) (hlimit : n + calls.length ≤ limit)
    (hsearch : 2 ^ 21 ≤ limit → Brackets inside limit search)
    (hcalls : ∀ c ∈ calls, c.key ∈ inside) :
    Meets (DynamicPgm.call search) (fun t c => c.key ∈ inside ∧ t.total ≤ limit ∧
      (t.minIndexLevel < t.usedLevels → Brackets inside limit search)) t calls := by
  induction calls generalizing t n with
  | nil => trivial
  | cons c cs ih =>
    rw [List.length_cons] at hlimit
    have htotal := hsized.total_le
    refine ⟨⟨hcalls c List.mem_cons_self, by omega, fun hindexed => ?_⟩, fun r t' hcall => ?_⟩
    · have := hsized.le_of_indexed hindexed
      exact hsearch (by omega)
    · obtain ⟨hvalid', hsized'⟩ := DynamicPgm.call_sized hvalid hsized hcall
      exact ih hvalid' hsized' (by omega) fun c hc => hcalls c (List.mem_cons_of_mem _ hc)

theorem DynamicPgm.Stores.run {calls : List (Call K V)} {t : DynamicPgm K V} {m : K → Option V}
    {n : ℕ} (h : t.Stores inside m) (hinside : ∀ k ∈ inside, k < ⊤) (hsized : t.Sized n)
    (hlimit : n + calls.length ≤ limit) (hsearch : 2 ^ 21 ≤ limit → Brackets inside limit search)
    (hcalls : ∀ c ∈ calls, c.key ∈ inside) :
    ∃ replies t', run (DynamicPgm.call search) t calls = .ok (replies, t') ∧
      Replies Call.apply Call.Answers m calls replies ∧
      t'.Stores inside (calls.foldl Call.apply m) ∧ t'.Searchable inside limit search := by
  obtain ⟨replies, t', hrun, hreplies, hstores⟩ := run_refines
    (fun _ _ _ h hc => h.call hinside hc.1 hc.2.1 hc.2.2) h
    (meets_of_keys h.valid hsized hlimit hsearch hcalls)
  obtain ⟨-, hsized'⟩ := DynamicPgm.run_sized h.valid hsized hrun
  exact ⟨replies, t', hrun, hreplies, hstores, hinside, hstores.mem,
    hsized'.total_le.trans hlimit,
    fun hindexed => hsearch ((hsized'.le_of_indexed hindexed).trans hlimit)⟩

theorem load_run (hload : DynamicPgm.Loadable keyValue) (hinside : ∀ k ∈ inside, k < ⊤)
    (hkeys : ∀ pair ∈ keyValue, pair.1 ∈ inside) {calls : List (Call K V)}
    (hcalls : ∀ c ∈ calls, c.key ∈ inside) (hlimit : keyValue.length + calls.length ≤ limit)
    (hsearch : 2 ^ 21 ≤ limit → Brackets inside limit search) :
    ∃ t replies t', DynamicPgm.ofRange keyValue = .ok t ∧
      run (DynamicPgm.call search) t calls = .ok (replies, t') ∧
      Replies Call.apply Call.Answers (DynamicPgm.firstPair keyValue) calls replies ∧
      t'.Stores inside (calls.foldl Call.apply (DynamicPgm.firstPair keyValue)) ∧
      t'.Searchable inside limit search := by
  obtain ⟨t, hload, hstores⟩ := DynamicPgm.stores_ofRange hload hkeys
  obtain ⟨-, hsized⟩ := DynamicPgm.ofRange_sized hload
  obtain ⟨replies, t', hrun, hresult⟩ := hstores.run hinside hsized hlimit hsearch hcalls
  exact ⟨t, replies, t', hload, hrun, hresult⟩

/-- In every run after a bulk load the levels stay sorted, synchronised with their static indexes
and within their sizes, and these within eight times the number of pairs and calls. -/
theorem run_keeps_levels {calls : List (Call K V)} {t t' : DynamicPgm K V}
    {replies : List (Reply K V)}
    (hload : DynamicPgm.ofRange keyValue = .ok t)
    (hrun : run (DynamicPgm.call search) t calls = .ok (replies, t')) :
    t'.Valid ∧ t'.total ≤ keyValue.length + calls.length ∧
      ∀ i < t'.usedLevels, t'.maxSize i ≤ max 512 (8 * (keyValue.length + calls.length)) := by
  obtain ⟨hvalid, hsized⟩ := DynamicPgm.ofRange_sized hload
  obtain ⟨hvalid', hsized'⟩ := DynamicPgm.run_sized hvalid hsized hrun
  exact ⟨hvalid', hsized'.total_le, fun i hi => hsized'.maxSize_le hi⟩

theorem lt_top_of_lt {k : Word} (h : (k : ℕ) < 2 ^ 57) : k < ⊤ :=
  Fin.lt_def.mpr (h.trans (by decide))

def fillBuffer (n : ℕ) : List (Call Word Word) :=
  (List.range n).map (fun i => .put (.ofNat (2 * i + 1)) (.ofNat 6)) ++
    [.remove (.ofNat 2), .get (.ofNat 4)]

theorem run_keeps_levels_full_buffer :
    ∃ (t t' : DynamicPgm Word Word) (replies : List (Reply Word Word)),
      DynamicPgm.ofRange [(.ofNat 2, .ofNat 4), (.ofNat 4, .ofNat 5)] = .ok t ∧
      run (DynamicPgm.call fun _ _ => .error .undefined) t (fillBuffer 600) = .ok (replies, t') ∧
      t'.Valid ∧ t'.total ≤ 604 ∧ ∀ i < t'.usedLevels, t'.maxSize i ≤ 4832 := by
  have hpairs : ∀ pair ∈ [(Word.ofNat 2, Word.ofNat 4), (.ofNat 4, .ofNat 5)],
      (pair.1 : ℕ) < 2 ^ 57 :=
    List.forall_mem_cons.mpr ⟨by decide, List.forall_mem_singleton.mpr (by decide)⟩
  have hcalls : ∀ c ∈ fillBuffer 600, (c.key : ℕ) < 2 ^ 57 := by
    rw [fillBuffer, List.forall_mem_append]
    refine ⟨fun c hc => ?_, by decide⟩
    obtain ⟨i, hi, rfl⟩ := List.mem_map.mp hc
    have hlt := List.mem_range.mp hi
    exact (Nat.mod_lt_of_lt (by omega) : (2 * i + 1) % 2 ^ 64 < 2 ^ 57)
  have hlength : (fillBuffer 600).length = 602 := by
    rw [fillBuffer, List.length_append, List.length_map, List.length_range]
    rfl
  obtain ⟨t, replies, t', hload, hrun, -⟩ := @load_run _ _ _ _ _ _ (fun _ _ => .error .undefined)
    {k | k < ⊤} 604 _ (DynamicPgm.loadable_of_all (by decide) (by decide)) (fun k hk => hk)
    (fun pair hpair => lt_top_of_lt (hpairs pair hpair)) _
    (fun c hc => lt_top_of_lt (hcalls c hc)) (by rw [hlength]; decide)
    fun hlong => absurd hlong (by decide)
  obtain ⟨hvalid, htotal, hlevels⟩ := run_keeps_levels hload hrun
  rw [hlength] at htotal hlevels
  exact ⟨t, t', replies, hload, hrun, hvalid, htotal, hlevels⟩

end LearnedIndexFramework.Pgm
