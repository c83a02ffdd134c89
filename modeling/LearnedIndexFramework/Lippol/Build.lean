import LearnedIndexFramework.Lippol.Fmcd
import Mathlib.Data.List.GetD

/-! Building nodes: two-key nodes out of the pool, and whole trees out of sorted arrays. -/

namespace LearnedIndexFramework.Lippol

open Lib Function

variable {fp : Precision} {P : Type}

structure Recycled (node : Node fp P) : Prop where
  isTwo : node.header.isTwo = true
  buildSize : node.header.buildSize = 2
  size : node.header.size = 2
  fixed : node.header.fixed = false
  numItems : node.header.numItems = 8
  items : ∀ i, node.items i = .empty

def CleanPool (pendingTwo : List (Node fp P)) : Prop := ∀ node ∈ pendingTwo, Recycled node

theorem newTwo_recycled : Recycled (newTwo : Node fp P) := ⟨rfl, rfl, rfl, rfl, rfl, fun _ => rfl⟩

section Fill

variable {slots : List (ℕ × Item fp P)}

theorem foldl_update_of_not_mem {items : ℕ → Item fp P} {i : ℕ} (h : i ∉ slots.map Prod.fst) :
    slots.foldl (fun items slot => update items slot.1 slot.2) items i = items i := by
  induction slots generalizing items with
  | nil => rfl
  | cons slot slots ih =>
    simp only [List.map_cons, List.mem_cons, not_or] at h
    rw [List.foldl_cons, ih h.2, update_of_ne h.1]

theorem foldl_update_of_mem {items : ℕ → Item fp P} (hnodup : (slots.map Prod.fst).Nodup)
    {slot : ℕ × Item fp P} (hmem : slot ∈ slots) :
    slots.foldl (fun items slot => update items slot.1 slot.2) items slot.1 = slot.2 := by
  induction slots generalizing items with
  | nil => simp at hmem
  | cons s slots ih =>
    rw [List.map_cons, List.nodup_cons] at hnodup
    rw [List.foldl_cons]
    rcases List.mem_cons.mp hmem with rfl | hmem
    · rw [foldl_update_of_not_mem hnodup.1, update_self]
    · exact ih hnodup.2 hmem

theorem fillSlots_cases (hnodup : (slots.map Prod.fst).Nodup) (i : ℕ) :
    fillSlots slots i = .empty ∨ (i, fillSlots slots i) ∈ slots := by
  by_cases hi : i ∈ slots.map Prod.fst
  · obtain ⟨slot, hmem, rfl⟩ := List.mem_map.mp hi
    refine .inr ?_
    rw [fillSlots, foldl_update_of_mem hnodup hmem]
    exact hmem
  · exact .inl (foldl_update_of_not_mem hi)

theorem fillSlots_valid {h : Header fp} {vs : List (ℕ × P)} (hpos : 0 < h.numItems) (ha : 0 ≤ h.a)
    (htwo : h.isTwo = true → h.buildSize = 2 ∧ h.numItems = 8 ∧ h.fixed = false)
    (hsize : h.size = vs.length) (hnodup : (slots.map Prod.fst).Nodup)
    (hroute : ∀ slot ∈ slots, ∀ v ∈ slot.2.entries, h.predictPos v.1 = slot.1)
    (hvalid : ∀ slot ∈ slots, slot.2.Valid) (hvs : Ascending vs)
    (hmem : ∀ v, v ∈ vs ↔ ∃ slot ∈ slots, v ∈ slot.2.entries) :
    (Item.child h (fillSlots slots)).Valid ∧ (Item.child h (fillSlots slots)).entries = vs := by
  have hroute' : ∀ i < h.numItems, ∀ v ∈ (fillSlots slots i).entries, h.predictPos v.1 = i := by
    intro i _ v hv
    rcases fillSlots_cases hnodup i with hempty | hslot
    · simp [hempty] at hv
    · exact hroute _ hslot v hv
  have hvalid' : ∀ i < h.numItems, (fillSlots slots i).Valid := by
    intro i _
    rcases fillSlots_cases hnodup i with hempty | hslot
    · rw [hempty]
      trivial
    · exact hvalid _ hslot
  have hentries : slotEntries h.numItems (fillSlots slots) = vs := by
    refine (slotEntries_ascending ha hroute' fun i hi => (hvalid' i hi).ascending).eq_of_mem_iff hvs
      fun v => ?_
    rw [mem_slotEntries, hmem]
    constructor
    · rintro ⟨i, hi, hv⟩
      rcases fillSlots_cases hnodup i with hempty | hslot
      · simp [hempty] at hv
      · exact ⟨_, hslot, hv⟩
    · rintro ⟨slot, hslot, hv⟩
      refine ⟨slot.1, ?_, ?_⟩
      · rw [← hroute slot hslot v hv]
        exact predictPos_lt hpos _
      · rw [fillSlots, foldl_update_of_mem hnodup hslot]
        exact hv
  exact ⟨⟨⟨hpos, ha, htwo, by rw [hentries, hsize], hroute'⟩, hvalid'⟩, hentries⟩

section Full

theorem full_update {items : ℕ → Item fp P} (hitems : ∀ i, (items i).Full) {s : Item fp P}
    (hs : s.Full) (pos i : ℕ) : (update items pos s i).Full := by
  by_cases hi : i = pos
  · rw [hi, update_self]
    exact hs
  · rw [update_of_ne hi]
    exact hitems i

theorem foldl_update_full (hslots : ∀ slot ∈ slots, slot.2.Full) {items : ℕ → Item fp P}
    (hitems : ∀ i, (items i).Full) (i : ℕ) :
    (slots.foldl (fun items slot => update items slot.1 slot.2) items i).Full := by
  induction slots generalizing items with
  | nil => exact hitems i
  | cons slot slots ih =>
    exact ih (fun s hs => hslots s (List.mem_cons_of_mem _ hs))
      (full_update hitems (hslots slot List.mem_cons_self) slot.1)

theorem fillSlots_full (hslots : ∀ slot ∈ slots, slot.2.Full) (i : ℕ) :
    (fillSlots slots i).Full := foldl_update_full hslots (fun _ => by trivial) i

end Full

end Fill

/-- What a builder returns for an array: a valid node that stores it, and a clean pool. -/
structure Built (vs : List (ℕ × P)) (r : Node fp P × List (Node fp P)) : Prop where
  pool : CleanPool r.2
  valid : r.1.toItem.Valid
  entries : r.1.toItem.entries = vs
  full : r.1.toItem.Full

section Two

variable {key1 key2 : ℕ} {value1 value2 : P} {node : Node fp P} {pendingTwo : List (Node fp P)}
  {r : Node fp P × List (Node fp P)}

theorem takeTwo_spec (hpool : CleanPool pendingTwo) :
    Recycled (takeTwo pendingTwo).1 ∧ CleanPool (takeTwo pendingTwo).2 := by
  cases pendingTwo with
  | nil => exact ⟨newTwo_recycled, by simp [takeTwo, CleanPool]⟩
  | cons node rest => exact ⟨hpool node (by simp), fun n hn => hpool n (List.mem_cons_of_mem _ hn)⟩

/-- The model of a new two-key node sends its keys to different slots. -/
def TwoSlots (fp : Precision) (key1 key2 : ℕ) : Prop :=
  let h := (newTwo : Node fp Unit).header.throughTwo (min key1 key2) (max key1 key2)
  h.predictPos key1 ≠ h.predictPos key2

instance : Decidable (TwoSlots fp key1 key2) := inferInstanceAs (Decidable (_ ≠ _))

theorem TwoSlots.symm (h : TwoSlots fp key1 key2) : TwoSlots fp key2 key1 := by
  rw [TwoSlots, min_comm, max_comm]
  exact Ne.symm h

theorem TwoSlots.ne (h : TwoSlots fp key1 key2) : key1 ≠ key2 := by
  rintro rfl
  exact h rfl

theorem predictPos_throughTwo (hnode : Recycled node) (key1 key2 key : ℕ) :
    (node.header.throughTwo key1 key2).predictPos key =
      ((newTwo : Node fp Unit).header.throughTwo key1 key2).predictPos key := by
  refine predictPos_congr hnode.numItems ?_
  simp only [Header.predictDouble, Header.throughTwo, hnode.numItems, newTwo]

theorem throughTwo_slope_nonneg (hnode : Recycled node) (hle : key1 ≤ key2) :
    0 ≤ (node.header.throughTwo key1 key2).a := by
  have htargets : fp.double (8 / 3 : ℕ) ≤ fp.double (8 * 2 / 3 : ℕ) :=
    fp.double_mono (by norm_num)
  have hkeys : fp.longDouble key1 ≤ fp.longDouble key2 := fp.longDouble_mono (by exact_mod_cast hle)
  simp only [Header.throughTwo, hnode.numItems]
  exact fp.double_nonneg (fp.longDouble_nonneg (div_nonneg
    (fp.double_nonneg (sub_nonneg.mpr htargets)) (fp.longDouble_nonneg (sub_nonneg.mpr hkeys))))

theorem TwoSlots.divisor_ne_zero (h : TwoSlots fp key1 key2) (hlt : key1 < key2) :
    fp.longDouble (fp.longDouble key2 - fp.longDouble key1) ≠ 0 := by
  have hle : fp.longDouble key1 ≤ fp.longDouble key2 :=
    fp.longDouble_mono (by exact_mod_cast hlt.le)
  -- keys that are converted to the same number get the same slot
  have hne : fp.longDouble key1 ≠ fp.longDouble key2 := fun heq =>
    h (predictPos_congr rfl (by rw [Header.predictDouble, heq, Header.predictDouble]))
  exact (fp.longDouble_pos _ (sub_pos.mpr (lt_of_le_of_ne hle hne))).ne'

theorem twoSlots_exact (hne : key1 ≠ key2) : TwoSlots .exact key1 key2 := by
  wlog hlt : key1 < key2 generalizing key1 key2
  · exact (this hne.symm (lt_of_le_of_ne (not_lt.mp hlt) hne.symm)).symm
  have hdiff : (0 : ℚ) < (key2 : ℚ) - key1 := by
    have : (key1 : ℚ) < key2 := by exact_mod_cast hlt
    linarith
  rw [TwoSlots, min_eq_left hlt.le, max_eq_right hlt.le]
  set h : Header .exact := (newTwo : Node .exact Unit).header.throughTwo key1 key2 with hh
  have hnum : h.numItems = 8 := rfl
  have ha : h.a = 3 / ((key2 : ℚ) - key1) := by
    rw [hh]
    simp only [Header.throughTwo, Precision.exact_double, Precision.exact_longDouble, newTwo]
    norm_num
  have hb : h.b = 2 - h.a * key1 := by
    rw [hh]
    simp only [Header.throughTwo, Precision.exact_double, Precision.exact_longDouble, newTwo]
    norm_num
  have hlow : h.predictPos key1 < 3 := by
    refine predictPos_lt_of_lt (by omega) (by omega) ?_
    rw [predictDouble_exact, hb]
    push_cast
    linarith
  have hhigh : 3 ≤ h.predictPos key2 := by
    refine le_predictPos (by omega) ?_
    have hspan : h.a * ((key2 : ℚ) - key1) = 3 := by rw [ha, div_mul_cancel₀ _ hdiff.ne']
    rw [predictDouble_exact, hb]
    push_cast
    linarith
  omega

theorem placeData_eq_ok {h : Header fp} {items items' : ℕ → Item fp P} {key : ℕ} {value : P} :
    placeData h items key value = .ok items' ↔ (items (h.predictPos key)).isEmpty ∧
      items' = update items (h.predictPos key) (.data key value) := by
  unfold placeData rtAssert
  by_cases hempty : (items (h.predictPos key)).isEmpty
  · simp [hempty, bind, Except.bind, pure, Except.pure, eq_comm]
  · simp [hempty, bind, Except.bind]

def twoNode (key1 : ℕ) (value1 : P) (key2 : ℕ) (value2 : P) (node : Node fp P) : Node fp P :=
  let header := node.header.throughTwo key1 key2
  { header
    items := fillSlots [(header.predictPos key1, .data key1 value1),
      (header.predictPos key2, .data key2 value2)] }

theorem buildTreeTwo_eq_ok (hlt : key1 < key2) (hpool : CleanPool pendingTwo) :
    buildTreeTwo key1 value1 key2 value2 pendingTwo = .ok r ↔ TwoSlots fp key1 key2 ∧
      r = (twoNode key1 value1 key2 value2 (takeTwo pendingTwo).1, (takeTwo pendingTwo).2) := by
  obtain ⟨hnode, -⟩ := takeTwo_spec hpool
  have hslots : TwoSlots fp key1 key2 ↔
      ((takeTwo pendingTwo).1.header.throughTwo key1 key2).predictPos key1 ≠
        ((takeTwo pendingTwo).1.header.throughTwo key1 key2).predictPos key2 := by
    rw [predictPos_throughTwo hnode, predictPos_throughTwo hnode, TwoSlots, min_eq_left hlt.le,
      max_eq_right hlt.le]
  have hassert : rtAssert (key1 < key2) "key1 < key2" = .ok () := if_pos hlt
  have hitems : (takeTwo pendingTwo).1.items = fun _ => .empty := funext hnode.items
  simp only [buildTreeTwo, if_neg hlt.not_gt, hassert]
  rw [hslots]
  simp only [bind_eq_ok, placeData_eq_ok, hitems]
  constructor
  · rintro ⟨-, -, -, -, _, ⟨-, rfl⟩, _, ⟨hempty, rfl⟩, hret⟩
    refine ⟨fun heq => ?_, (Except.ok.inj hret).symm⟩
    rw [heq, update_self] at hempty
    cases hempty
  · rintro ⟨hne, rfl⟩
    refine ⟨(), trivial, (), assertFinite_eq_ok ((hslots.mpr hne).divisor_ne_zero hlt), _,
      ⟨rfl, rfl⟩, _, ⟨?_, rfl⟩, rfl⟩
    rw [update_of_ne hne.symm]
    rfl

theorem buildTreeTwo_swap (hgt : key1 > key2) : buildTreeTwo key1 value1 key2 value2 pendingTwo =
    buildTreeTwo key2 value2 key1 value1 pendingTwo := by
  simp only [buildTreeTwo, if_pos hgt, if_neg hgt.not_gt]

theorem buildTreeTwo_of_eq (key : ℕ) (value1 value2 : P) (pendingTwo : List (Node fp P)) :
    buildTreeTwo key value1 key value2 pendingTwo = .error (.rtAssert "key1 < key2") := by
  simp [buildTreeTwo, rtAssert, bind, Except.bind]

theorem built_twoNode (hlt : key1 < key2) (hpool : CleanPool pendingTwo)
    (hslots : TwoSlots fp key1 key2) : Built [(key1, value1), (key2, value2)]
      (twoNode key1 value1 key2 value2 (takeTwo pendingTwo).1, (takeTwo pendingTwo).2) := by
  obtain ⟨hnode, hrest⟩ := takeTwo_spec hpool
  generalize (takeTwo pendingTwo).1 = node at hnode
  have hne : (node.header.throughTwo key1 key2).predictPos key1 ≠
      (node.header.throughTwo key1 key2).predictPos key2 := by
    rw [TwoSlots, min_eq_left hlt.le, max_eq_right hlt.le] at hslots
    rwa [predictPos_throughTwo hnode, predictPos_throughTwo hnode]
  obtain ⟨hvalid, hentries⟩ := @fillSlots_valid fp P
    [((node.header.throughTwo key1 key2).predictPos key1, .data key1 value1),
      ((node.header.throughTwo key1 key2).predictPos key2, .data key2 value2)]
    (node.header.throughTwo key1 key2) [(key1, value1), (key2, value2)]
    (show 0 < node.header.numItems by rw [hnode.numItems]; omega)
    (throughTwo_slope_nonneg hnode hlt.le)
    (fun _ => ⟨hnode.buildSize, hnode.numItems, hnode.fixed⟩) hnode.size (by simpa using hne)
    (by simp) (by simp [Item.Valid]) (by simpa [Ascending] using hlt) (by simp)
  exact ⟨hrest, hvalid, hentries, fun hnil => List.cons_ne_nil _ _ (hentries.symm.trans hnil),
    fun i _ => fillSlots_full (by simp [Item.Full]) i⟩

def twoEntries (key1 : ℕ) (value1 : P) (key2 : ℕ) (value2 : P) : List (ℕ × P) :=
  if key1 > key2 then [(key2, value2), (key1, value1)] else [(key1, value1), (key2, value2)]

theorem buildTreeTwo_built (hpool : CleanPool pendingTwo)
    (hbuild : buildTreeTwo key1 value1 key2 value2 pendingTwo = .ok r) :
    TwoSlots fp key1 key2 ∧ Built (twoEntries key1 value1 key2 value2) r := by
  rcases lt_trichotomy key1 key2 with hlt | rfl | hgt
  · obtain ⟨hslots, rfl⟩ := (buildTreeTwo_eq_ok hlt hpool).mp hbuild
    rw [twoEntries, if_neg hlt.not_gt]
    exact ⟨hslots, built_twoNode hlt hpool hslots⟩
  · cases (buildTreeTwo_of_eq key1 value1 value2 pendingTwo).symm.trans hbuild
  · rw [buildTreeTwo_swap hgt] at hbuild
    obtain ⟨hslots, rfl⟩ := (buildTreeTwo_eq_ok hgt hpool).mp hbuild
    rw [twoEntries, if_pos hgt]
    exact ⟨hslots.symm, built_twoNode hgt hpool hslots⟩

theorem buildTreeTwo_returns (hslots : TwoSlots fp key1 key2) (hpool : CleanPool pendingTwo) :
    ∃ r, buildTreeTwo key1 value1 key2 value2 pendingTwo = .ok r := by
  rcases Nat.lt_or_gt_of_ne hslots.ne with hlt | hgt
  · exact ⟨_, (buildTreeTwo_eq_ok hlt hpool).mpr ⟨hslots, rfl⟩⟩
  · rw [buildTreeTwo_swap hgt]
    exact ⟨_, (buildTreeTwo_eq_ok hgt hpool).mpr ⟨hslots.symm, rfl⟩⟩

end Two

section Runs

variable {pos : ℕ → ℕ} {vs : List (ℕ × P)}

theorem run_spec {p : ℕ} {run : List (ℕ × P)} (h : (p, run) ∈ splitRuns pos vs) :
    run ≠ [] ∧ ∀ v ∈ run, pos v.1 = p := by
  induction vs generalizing p run with
  | nil => simp [splitRuns] at h
  | cons v vs ih =>
    unfold splitRuns at h
    split at h
    · obtain ⟨rfl, rfl⟩ : p = pos v.1 ∧ run = [v] := by simpa using h
      simp
    · next q run' runs heq =>
      have hq := ih (heq ▸ List.mem_cons_self)
      have hrest : ∀ r ∈ runs, r ∈ splitRuns pos vs := fun r hr => heq ▸ List.mem_cons_of_mem _ hr
      split at h
      · next hv =>
        rcases List.mem_cons.mp h with hfirst | hmem
        · obtain ⟨rfl, rfl⟩ := Prod.mk.inj hfirst
          refine ⟨by simp, fun w hw => ?_⟩
          rcases List.mem_cons.mp hw with rfl | hw
          · exact hv
          · exact hq.2 w hw
        · exact ih (hrest _ hmem)
      · rcases List.mem_cons.mp h with hfirst | hmem
        · obtain ⟨rfl, rfl⟩ := Prod.mk.inj hfirst
          simp
        · rw [← heq] at hmem
          exact ih hmem

theorem flatten_splitRuns (pos : ℕ → ℕ) (vs : List (ℕ × P)) :
    ((splitRuns pos vs).map Prod.snd).flatten = vs := by
  induction vs with
  | nil => rfl
  | cons v vs ih =>
    unfold splitRuns
    split
    · next heq =>
      rw [heq] at ih
      simp at ih
      simp [ih]
    · next q run runs heq =>
      rw [heq] at ih
      split
      · simpa using ih
      · simpa using ih

theorem run_sublist {p : ℕ} {run : List (ℕ × P)} (h : (p, run) ∈ splitRuns pos vs) :
    run.Sublist vs := by
  rw [← flatten_splitRuns pos vs]
  exact List.sublist_flatten_of_mem (List.mem_map_of_mem h)

theorem splitRuns_pairwise (hmono : vs.Pairwise fun v w => pos v.1 ≤ pos w.1) :
    ((splitRuns pos vs).map Prod.fst).Pairwise (· < ·) := by
  induction vs with
  | nil => exact .nil
  | cons v vs ih =>
    obtain ⟨hv, hvs⟩ := List.pairwise_cons.mp hmono
    have hrest := ih hvs
    unfold splitRuns
    split
    · exact List.pairwise_singleton _ _
    · next p run runs heq =>
      rw [heq] at hrest
      split
      · exact hrest
      · next hne =>
        have hmem : (p, run) ∈ splitRuns pos vs := heq ▸ List.mem_cons_self
        obtain ⟨hnil, hpos⟩ := run_spec hmem
        obtain ⟨w, hw⟩ := List.exists_mem_of_ne_nil run hnil
        have hle := hv w ((run_sublist hmem).subset hw)
        have hlt : pos v.1 < p := by
          have := hpos w hw
          omega
        refine List.pairwise_cons.mpr ⟨fun q hq => ?_, hrest⟩
        rcases List.mem_cons.mp hq with rfl | hq
        · exact hlt
        · exact hlt.trans ((List.pairwise_cons.mp hrest).1 q hq)

theorem run_length_lt {p : ℕ} {run : List (ℕ × P)} (h : (p, run) ∈ splitRuns pos vs)
    {v w : ℕ × P} (hv : v ∈ vs) (hw : w ∈ vs) (hne : pos v.1 ≠ pos w.1) :
    run.length < vs.length := by
  have hsub := run_sublist h
  refine lt_of_le_of_ne hsub.length_le fun hlen => ?_
  obtain rfl := hsub.eq_of_length hlen
  have hpos := (run_spec h).2
  exact hne ((hpos v hv).trans (hpos w hw).symm)

end Runs

section Slots

variable {build : List (ℕ × P) → List (Node fp P) → Except Fault (Node fp P × List (Node fp P))}
  {runs : List (ℕ × List (ℕ × P))} {pendingTwo : List (Node fp P)}

def Sound (build : List (ℕ × P) → List (Node fp P) → Except Fault (Node fp P × List (Node fp P)))
    (vs : List (ℕ × P)) : Prop :=
  ∀ pendingTwo r, CleanPool pendingTwo → build vs pendingTwo = .ok r → Built vs r

theorem buildRuns_one (p key : ℕ) (value : P) :
    buildRuns build ((p, [(key, value)]) :: runs) pendingTwo =
      buildRuns build runs pendingTwo >>= fun below =>
        .ok ((p, .data key value) :: below.1, below.2) := rfl

theorem buildRuns_many (p : ℕ) (v w : ℕ × P) (vs : List (ℕ × P)) :
    buildRuns build ((p, v :: w :: vs) :: runs) pendingTwo =
      buildRuns build runs pendingTwo >>= fun below =>
        build (v :: w :: vs) below.2 >>= fun built =>
          .ok ((p, built.1.toItem) :: below.1, built.2) := rfl

theorem buildRuns_built {r : List (ℕ × Item fp P) × List (Node fp P)}
    (hbuild : ∀ run ∈ runs, Sound build run.2) (hne : ∀ run ∈ runs, run.2 ≠ [])
    (hpool : CleanPool pendingTwo) (hruns : buildRuns build runs pendingTwo = .ok r) :
    CleanPool r.2 ∧ (∀ slot ∈ r.1, slot.2.Valid ∧ slot.2.Full) ∧
      r.1.map (fun slot => (slot.1, slot.2.entries)) = runs ∧
      ∀ run ∈ runs, 2 ≤ run.2.length →
        ∃ pendingTwo built, CleanPool pendingTwo ∧ build run.2 pendingTwo = .ok built := by
  induction runs generalizing r with
  | nil =>
    cases hruns
    exact ⟨hpool, nofun, rfl, nofun⟩
  | cons run runs ih =>
    obtain ⟨p, run⟩ := run
    have hbuild' := fun run hrun => hbuild run (List.mem_cons_of_mem _ hrun)
    have hne' := fun run hrun => hne run (List.mem_cons_of_mem _ hrun)
    have hrun : run ≠ [] := hne (p, run) List.mem_cons_self
    match hcase : run, hrun with
    | [(key, value)], _ =>
      rw [buildRuns_one] at hruns
      obtain ⟨below, hbelow, hret⟩ := bind_eq_ok.mp hruns
      cases hret
      obtain ⟨hpool', hslots, hmap, hreturns⟩ := ih hbuild' hne' hbelow
      exact ⟨hpool', List.forall_mem_cons.mpr ⟨⟨trivial, trivial⟩, hslots⟩, by simp [hmap],
        List.forall_mem_cons.mpr ⟨fun h2 => absurd h2 (by simp), hreturns⟩⟩
    | v :: w :: vs, _ =>
      rw [buildRuns_many] at hruns
      obtain ⟨below, hbelow, hruns⟩ := bind_eq_ok.mp hruns
      obtain ⟨built, hnode, hret⟩ := bind_eq_ok.mp hruns
      cases hret
      obtain ⟨hpool', hslots, hmap, hreturns⟩ := ih hbuild' hne' hbelow
      have hbuilt := hbuild _ List.mem_cons_self _ _ hpool' hnode
      exact ⟨hbuilt.pool, List.forall_mem_cons.mpr ⟨⟨hbuilt.valid, hbuilt.full⟩, hslots⟩,
        by simp [hmap, hbuilt.entries],
        List.forall_mem_cons.mpr ⟨fun _ => ⟨_, _, hpool', hnode⟩, hreturns⟩⟩

theorem buildRuns_returns (hbuild : ∀ run ∈ runs, Sound build run.2)
    (hreturns : ∀ run ∈ runs, 2 ≤ run.2.length →
      ∀ pendingTwo, CleanPool pendingTwo → ∃ built, build run.2 pendingTwo = .ok built)
    (hne : ∀ run ∈ runs, run.2 ≠ []) (hpool : CleanPool pendingTwo) :
    ∃ r, buildRuns build runs pendingTwo = .ok r := by
  induction runs with
  | nil => exact ⟨_, rfl⟩
  | cons run runs ih =>
    obtain ⟨p, run⟩ := run
    have hbuild' := fun run hrun => hbuild run (List.mem_cons_of_mem _ hrun)
    have hne' := fun run hrun => hne run (List.mem_cons_of_mem _ hrun)
    obtain ⟨below, hbelow⟩ := ih hbuild' (fun run hrun => hreturns run (List.mem_cons_of_mem _ hrun))
      hne'
    have hpool' := (buildRuns_built hbuild' hne' hpool hbelow).1
    have hrun : run ≠ [] := hne (p, run) List.mem_cons_self
    match hcase : run, hrun with
    | [(key, value)], _ => exact ⟨_, by rw [buildRuns_one, hbelow]; rfl⟩
    | v :: w :: vs, _ =>
      obtain ⟨built, hnode⟩ := hreturns _ List.mem_cons_self (by simp) _ hpool'
      exact ⟨_, bind_eq_ok.mpr ⟨below, hbelow, bind_eq_ok.mpr ⟨built, hnode, rfl⟩⟩⟩

end Slots

section Segment

variable {pendingTwo : List (Node fp P)} {vs : List (ℕ × P)} {r : Node fp P × List (Node fp P)}

theorem increasing_map_fst {vs : List (ℕ × P)} (h : Ascending vs) :
    Increasing (vs.map Prod.fst) := by
  intro i j hij hj
  have hpairs : (vs.map Prod.fst).Pairwise (· < ·) := List.pairwise_map.mpr h
  have hi : i < (vs.map Prod.fst).length := by omega
  rw [List.getD_eq_getElem _ _ hi, List.getD_eq_getElem _ _ hj]
  exact List.pairwise_iff_getElem.mp hpairs i j hi hj hij

theorem exists_mem_getD {vs : List (ℕ × P)} {i : ℕ} (hi : i < (vs.map Prod.fst).length) :
    ∃ v ∈ vs, v.1 = (vs.map Prod.fst).getD i 0 := by
  rw [List.getD_eq_getElem _ _ hi]
  exact List.mem_map.mp (List.getElem_mem hi)

/-- The models separate the entries of an array: the two of a two-key node get different slots, and
a larger node hands those that share a slot to children that separate them in turn.  A node that
hands all its entries to one child never gets there. -/
inductive Separable (fp : Precision) : List (ℕ × P) → Prop
  | two {v w : ℕ × P} : TwoSlots fp v.1 w.1 → Separable fp [v, w]
  | many {vs : List (ℕ × P)} {h : Header fp} : 3 ≤ vs.length →
      bulkHeader (vs.map Prod.fst) = .ok h →
      (∀ run ∈ splitRuns h.predictPos vs, 2 ≤ run.2.length → Separable fp run.2) → Separable fp vs

theorem Separable.run_ne (hsep : Separable fp vs) {h : Header fp} (hlen : 3 ≤ vs.length)
    (hheader : bulkHeader (vs.map Prod.fst) = .ok h) (p : ℕ) :
    (p, vs) ∉ splitRuns h.predictPos vs := by
  induction hsep generalizing p with
  | two => exact absurd hlen (by simp)
  | many _ hheader' _ ih =>
    intro hmem
    obtain rfl := Except.ok.inj (hheader'.symm.trans hheader)
    exact ih _ hmem (by dsimp only; omega) hlen hheader p hmem

theorem Separable.run_shorter (hsep : Separable fp vs) {h : Header fp} (hlen : 3 ≤ vs.length)
    (hheader : bulkHeader (vs.map Prod.fst) = .ok h) {run : ℕ × List (ℕ × P)}
    (hrun : run ∈ splitRuns h.predictPos vs) : run.2.length < vs.length := by
  have hsub := run_sublist hrun
  refine lt_of_le_of_ne hsub.length_le fun heq => ?_
  obtain ⟨p, run⟩ := run
  obtain rfl := hsub.eq_of_length heq
  exact hsep.run_ne hlen hheader p hrun

theorem buildSegment_bulk (n : ℕ) (hlen : 3 ≤ vs.length) :
    buildSegment (n + 1) vs pendingTwo = (do
      let header ← bulkHeader (vs.map Prod.fst)
      let (slots, pendingTwo) ←
        buildRuns (buildSegment n) (splitRuns header.predictPos vs) pendingTwo
      return ({ header, items := fillSlots slots }, pendingTwo)) := by
  match vs, hlen with
  | v1 :: v2 :: v3 :: rest, _ => rfl

theorem buildSegment_bulk_eq_ok (n : ℕ) (hlen : 3 ≤ vs.length) :
    buildSegment (n + 1) vs pendingTwo = .ok r ↔
      ∃ header slots, bulkHeader (vs.map Prod.fst) = .ok header ∧
        buildRuns (buildSegment n) (splitRuns header.predictPos vs) pendingTwo = .ok slots ∧
        r = ({ header, items := fillSlots slots.1 }, slots.2) := by
  rw [buildSegment_bulk n hlen]
  simp only [bind_eq_ok]
  constructor
  · rintro ⟨header, hheader, slots, hslots, hret⟩
    exact ⟨header, slots, hheader, hslots, (Except.ok.inj hret).symm⟩
  · rintro ⟨header, slots, hheader, hslots, rfl⟩
    exact ⟨header, hheader, slots, hslots, rfl⟩

theorem built_fillSlots {h : Header fp} {slots : List (ℕ × Item fp P)} (hvs : Ascending vs)
    (hlen : 3 ≤ vs.length) (hheader : bulkHeader (vs.map Prod.fst) = .ok h)
    (hpool : CleanPool pendingTwo) (hslots : ∀ slot ∈ slots, slot.2.Valid ∧ slot.2.Full)
    (hmap : slots.map (fun slot => (slot.1, slot.2.entries)) = splitRuns h.predictPos vs) :
    Built vs ({ header := h, items := fillSlots slots }, pendingTwo) := by
  have hfits := fits_of_bulkHeader (by rw [List.length_map]; omega) hheader
  have hmono : vs.Pairwise fun v w => h.predictPos v.1 ≤ h.predictPos w.1 :=
    hvs.imp fun hvw => predictPos_mono hfits.slope_nonneg hvw.le
  have hrun : ∀ slot ∈ slots, (slot.1, slot.2.entries) ∈ splitRuns h.predictPos vs :=
    fun slot hslot => hmap ▸ List.mem_map_of_mem hslot
  have hnodup : (slots.map Prod.fst).Nodup := by
    have hfst : slots.map Prod.fst = (splitRuns h.predictPos vs).map Prod.fst := by simp [← hmap]
    rw [hfst]
    exact (splitRuns_pairwise hmono).imp fun hlt => hlt.ne
  obtain ⟨hvalid, hentries⟩ := fillSlots_valid hfits.numItems_pos hfits.slope_nonneg
    (by simp [hfits.isTwo]) (by simpa using hfits.size_eq) hnodup
    (fun slot hslot => (run_spec (hrun slot hslot)).2) (fun slot hslot => (hslots slot hslot).1) hvs
    fun u => by
      conv_lhs => rw [← flatten_splitRuns h.predictPos vs, ← hmap]
      simp
  refine ⟨hpool, hvalid, hentries, ?_, fun i _ => fillSlots_full (fun s hs => (hslots s hs).2) i⟩
  change Item.entries (Item.child h (fillSlots slots)) ≠ []
  rw [hentries]
  exact List.ne_nil_of_length_pos (by omega)

theorem buildSegment_built (n : ℕ) (hvs : Ascending vs) (hpool : CleanPool pendingTwo)
    (hbuild : buildSegment n vs pendingTwo = .ok r) : Separable fp vs ∧ Built vs r := by
  induction n generalizing vs pendingTwo r with
  | zero => cases hbuild
  | succ n ih =>
    obtain ⟨_, hassert, -⟩ := bind_eq_ok.mp hbuild
    have hlen : 2 ≤ vs.length := by
      by_contra hlt
      cases (if_neg hlt : rtAssert (vs.length ≥ 2) "end - begin >= 2" = _).symm.trans hassert
    rcases Nat.lt_or_eq_of_le hlen with h3 | h2
    · obtain ⟨h, slots, hheader, hslots, rfl⟩ := (buildSegment_bulk_eq_ok n h3).mp hbuild
      have hsub : ∀ run ∈ splitRuns h.predictPos vs, Ascending run.2 :=
        fun run hrun => hvs.sublist (run_sublist hrun)
      obtain ⟨hpool', hitems, hmap, hruns⟩ := buildRuns_built
        (fun run hrun _ _ hpool hok => (ih (hsub run hrun) hpool hok).2)
        (fun run hrun => (run_spec hrun).1) hpool hslots
      refine ⟨.many h3 hheader fun run hrun h2 => ?_,
        built_fillSlots hvs h3 hheader hpool' hitems hmap⟩
      obtain ⟨pool, built, hpool, hok⟩ := hruns run hrun h2
      exact (ih (hsub run hrun) hpool hok).1
    · obtain ⟨⟨key1, value1⟩, ⟨key2, value2⟩, rfl⟩ := List.length_eq_two.mp h2.symm
      have hlt : key1 < key2 := by simpa [Ascending] using hvs
      obtain ⟨hslots, rfl⟩ := (buildTreeTwo_eq_ok hlt hpool).mp hbuild
      exact ⟨.two hslots, built_twoNode hlt hpool hslots⟩

theorem buildSegment_returns (hsep : Separable fp vs) {n : ℕ} (hvs : Ascending vs)
    (hn : vs.length ≤ n) (hpool : CleanPool pendingTwo) :
    ∃ r, buildSegment n vs pendingTwo = .ok r := by
  induction hsep generalizing n pendingTwo with
  | two hslots =>
    obtain ⟨n, rfl⟩ : ∃ m, n = m + 1 := ⟨n - 1, by simp at hn; omega⟩
    exact buildTreeTwo_returns hslots hpool
  | @many vs h hlen hheader hruns ih =>
    obtain ⟨n, rfl⟩ : ∃ m, n = m + 1 := ⟨n - 1, by omega⟩
    have hsub : ∀ run ∈ splitRuns h.predictPos vs, Ascending run.2 :=
      fun run hrun => hvs.sublist (run_sublist hrun)
    have hshorter := fun {run} => @Separable.run_shorter _ _ _ (.many hlen hheader hruns) h hlen
      hheader run
    obtain ⟨slots, hslots⟩ := buildRuns_returns
      (fun run hrun _ _ hpool hok => (buildSegment_built n (hsub run hrun) hpool hok).2)
      (fun run hrun h2 _ hpool => ih run hrun h2 (hsub run hrun)
        (by have := hshorter hrun; omega) hpool)
      (fun run hrun => (run_spec hrun).1) hpool
    exact ⟨_, (buildSegment_bulk_eq_ok n hlen).mpr ⟨h, slots, hheader, hslots, rfl⟩⟩

theorem buildTreeBulk_built (hvs : Ascending vs) (hpool : CleanPool pendingTwo)
    (hbuild : buildTreeBulk vs pendingTwo = .ok r) : Separable fp vs ∧ Built vs r := by
  obtain ⟨_, -, hbuild⟩ := bind_eq_ok.mp hbuild
  exact buildSegment_built vs.length hvs hpool hbuild

theorem Separable.two_le (hsep : Separable fp vs) : 2 ≤ vs.length := by
  cases hsep with
  | two => exact le_rfl
  | many hlen => omega

theorem Separable.twoSlots {v w : ℕ × P} (hsep : Separable fp [v, w]) : TwoSlots fp v.1 w.1 := by
  cases hsep with
  | two hslots => exact hslots
  | many hlen => exact absurd hlen (by simp)

theorem buildTreeBulk_returns (hsep : Separable fp vs) (hvs : Ascending vs)
    (hpool : CleanPool pendingTwo) : ∃ r, buildTreeBulk vs pendingTwo = .ok r := by
  have hassert : rtAssert (vs.length > 1) "_size > 1" = .ok () := if_pos hsep.two_le
  obtain ⟨r, hr⟩ := buildSegment_returns hsep hvs le_rfl hpool
  exact ⟨r, by rw [buildTreeBulk, hassert]; exact hr⟩

theorem separable_exact (hvs : Ascending vs) (hlen : 2 ≤ vs.length) (hmax : vs.length < 2 ^ 30) :
    Separable .exact vs := by
  induction hn : vs.length using Nat.strong_induction_on generalizing vs with
  | _ n ih =>
    rcases Nat.lt_or_eq_of_le hlen with h3 | h2
    · obtain ⟨h, hheader, i, j, hi, hj, hsep⟩ :=
        bulkHeader_separates (increasing_map_fst hvs) (by rwa [List.length_map])
          (by rwa [List.length_map])
      obtain ⟨v, hv, hvi⟩ := exists_mem_getD hi
      obtain ⟨w, hw, hwj⟩ := exists_mem_getD hj
      rw [← hvi, ← hwj] at hsep
      refine .many h3 hheader fun run hrun h2 => ?_
      have hshort := run_length_lt hrun hv hw hsep.ne
      exact ih _ (hn ▸ hshort) (hvs.sublist (run_sublist hrun)) h2 (by omega) rfl
    · obtain ⟨v, w, rfl⟩ := List.length_eq_two.mp h2.symm
      exact .two (twoSlots_exact (List.pairwise_pair.mp hvs).ne)

theorem bulkHeader_of_ge {keys : List ℕ} (h : 2 ^ 30 ≤ keys.length) :
    (bulkHeader keys : Except Fault (Header fp)) = .error .intOverflow := by
  have hgap : computeGapCount keys.length = 1 := if_pos (by omega)
  have hover : 2 ^ 31 ≤ keys.length * (1 + 1) := by omega
  simp only [bulkHeader, hgap, if_pos hover]
  rfl

theorem buildTreeBulk_of_ge {vs : List (ℕ × P)} (h : 2 ^ 30 ≤ vs.length) :
    buildTreeBulk vs pendingTwo = .error .intOverflow := by
  have hassert : rtAssert (vs.length > 1) "_size > 1" = .ok () := if_pos (by omega)
  obtain ⟨n, hn⟩ : ∃ n, vs.length = n + 1 := ⟨vs.length - 1, by omega⟩
  rw [buildTreeBulk, hassert]
  change buildSegment vs.length vs pendingTwo = _
  rw [hn, buildSegment_bulk n (by omega), bulkHeader_of_ge (by simpa using h)]
  rfl

end Segment

end LearnedIndexFramework.Lippol
