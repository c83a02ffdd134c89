import LearnedIndexFramework.Lib.Run
import LearnedIndexFramework.Lippol.Frame

/-! Runs of the index after a bulk load: against a map under well-formed use, and against a set
of keys under any use. -/

namespace LearnedIndexFramework.Lippol

open Lib Function

variable {fp : Precision} {P : Type} {t : Lipp fp P}

theorem Lipp.Own.of_stored {key : ℕ} (hv : t.Valid) (hs : t.Stored key) : t.Own key := by
  obtain ⟨v, hdata⟩ := (stored_iff_reach hv).mp hs
  exact fun k w h => (Item.data.inj (hdata.symm.trans h)).1.symm

theorem at_of_mem {key : ℕ} {v : P} (hv : t.Valid) (hmem : (key, v) ∈ t.entries) :
    t.at key = .ok (some v, t.enter.1) := by
  rw [at_eq, (mem_entries_iff_reach hv.root).mp hmem]
  simp [Item.at, rtAssert, bind, Except.bind, pure, Except.pure]

theorem at_of_not_stored {key : ℕ} (hv : t.Valid) (hown : t.Own key) (hns : ¬ t.Stored key) :
    t.at key = .ok (none, t.enter.1) := by
  rcases reach_cases t.root.toItem key with hempty | ⟨k, v, hdata⟩
  · rw [at_eq, hempty]
    rfl
  · obtain rfl := hown k v hdata
    exact absurd (stored_of_reach hv hdata) hns

section WellFormed

/-- Well-formed use: absent keys are inserted and present ones asked for, changed or removed, the
index does not become empty, and no path of an insert or a removal is too long. -/
def Lipp.WellFormed (t : Lipp fp P) : Call P → Prop
  | .put key _ => ¬ t.Stored key ∧ t.root.toItem.pathSize key ≤ 128
  | .get key => t.Stored key
  | .update key _ => t.Stored key
  | .remove key => t.Stored key ∧ t.root.toItem.pathSize key ≤ 128 ∧ t.entries.length ≠ 1

def Lipp.NoOverflow (t : Lipp fp P) : Call P → Prop
  | .put key _ => t.root.toItem.RebuildFits key (t.root.toItem.insertToData key)
  | _ => True

def Call.apply (m : ℕ → Option P) : Call P → ℕ → Option P
  | .put key value => Function.update m key (some value)
  | .get _ => m
  | .update key value => Function.update m key (some value)
  | .remove key => Function.update m key none

def Call.answer (m : ℕ → Option P) : Call P → Reply P
  | .get key => { ok := (m key).isSome, value := m key }
  | _ => { ok := true }

structure CorrectMap (t : Lipp fp P) (m : ℕ → Option P) : Prop where
  valid : t.root.toItem.Valid
  ascending : Ascending t.entries
  contents : ∀ key value, (key, value) ∈ t.entries ↔ m key = some value
  at_eq : ∀ key value, m key = some value → ∃ t', t.at key = .ok (some value, t')

def StoresMap (t : Lipp fp P) (m : ℕ → Option P) : Prop :=
  t.Valid ∧ ∀ key value, (key, value) ∈ t.entries ↔ m key = some value

variable {m : ℕ → Option P}

theorem StoresMap.correctMap (h : StoresMap t m) : CorrectMap t m where
  valid := h.1.root
  ascending := h.1.root.ascending
  contents := h.2
  at_eq key value hm := ⟨_, at_of_mem h.1 ((h.2 key value).mpr hm)⟩

theorem StoresMap.put (h : StoresMap t m) {key : ℕ} {value : P} (hfits : t.InsertFits key value) :
    ∃ t', t.insert key value = .ok t' ∧ StoresMap t' (Function.update m key (some value)) := by
  obtain ⟨t', hinsert, hv, hperm⟩ := insert_spec h.1 hfits
  refine ⟨t', hinsert, hv, fun k v => ?_⟩
  rw [hperm.mem_iff, List.mem_cons]
  by_cases hk : k = key
  · subst hk
    have hns : (k, v) ∉ t.entries := fun hmem =>
      (hfits.slots k v ((mem_entries_iff_reach h.1.root).mp hmem)).ne rfl
    simp [hns, eq_comm]
  · simp [hk, h.2 k v]

theorem StoresMap.update (h : StoresMap t m) {key : ℕ} (value : P) (hs : t.Stored key) :
    (t.update key value).1 = true ∧
      StoresMap (t.update key value).2 (Function.update m key (some value)) := by
  have hframe := (updateFrame_iff h.1 value).mpr (.of_stored h.1 hs)
  refine ⟨hframe.1.mpr hs, h.1.update key value, fun k v => ?_⟩
  rw [hframe.2]
  by_cases hk : k = key
  · subst hk
    simp [hs, eq_comm]
  · simp [hk, h.2 k v]

theorem StoresMap.remove (h : StoresMap t m) {key : ℕ} (hs : t.Stored key)
    (hfits : t.RemoveFits key) :
    ∃ t', t.remove key = .ok (true, t') ∧ StoresMap t' (Function.update m key none) := by
  obtain ⟨ok, t', hremove, hok, hframe⟩ := (removeFrame_iff h.1).mpr hfits
  obtain rfl := hok.mpr hs
  refine ⟨t', hremove, h.1.remove hremove, fun k v => ?_⟩
  rw [hframe]
  by_cases hk : k = key
  · subst hk
    simp
  · simp [hk, h.2 k v]

theorem insertFits_exact {t : Lipp .exact P} (hv : t.Valid) {key : ℕ} (value : P)
    (hns : ¬ t.Stored key) (hdepth : t.root.toItem.pathSize key ≤ 128)
    (hfits : t.root.toItem.RebuildFits key (t.root.toItem.insertToData key)) :
    t.InsertFits key value := by
  refine ⟨fun k v hdata => twoSlots_exact ?_, hdepth, hfits, rebuildSeparates_exact hv.root _ hfits⟩
  rintro rfl
  exact hns (stored_of_reach hv hdata)

theorem StoresMap.call {t : Lipp .exact P} (h : StoresMap t m) {c : Call P} (hwell : t.WellFormed c)
    (hfits : t.NoOverflow c) :
    ∃ r t', t.call c = .ok (r, t') ∧ r = c.answer m ∧ StoresMap t' (c.apply m) := by
  cases c with
  | put key value =>
    obtain ⟨t', hput, h'⟩ := h.put (insertFits_exact h.1 value hwell.1 hwell.2 hfits)
    exact ⟨_, t', by rw [Lipp.call, hput]; rfl, rfl, h'⟩
  | get key =>
    obtain ⟨v, hmem⟩ := hwell
    refine ⟨_, t.enter.1, by rw [Lipp.call, at_of_mem h.1 hmem]; rfl, ?_, h.1.enter, fun k w => ?_⟩
    · simp [Call.answer, (h.2 key v).mp hmem]
    · rw [enter_entries]
      exact h.2 k w
  | update key value =>
    obtain ⟨hok, h'⟩ := h.update value hwell
    exact ⟨{ ok := (t.update key value).1 }, (t.update key value).2, rfl, by rw [hok]; rfl, h'⟩
  | remove key =>
    obtain ⟨hs, hdepth, hlen⟩ := hwell
    obtain ⟨t', hremove, h'⟩ :=
      h.remove hs ⟨.of_stored h.1 hs, hdepth, fun hlast => hlen hlast.1.2⟩
    exact ⟨_, t', by rw [Lipp.call, hremove]; rfl, rfl, h'⟩

theorem mem_iff_lookup {vs : List (ℕ × P)} (hvs : Ascending vs) (key : ℕ) (value : P) :
    (key, value) ∈ vs ↔ vs.lookup key = some value := by
  induction vs with
  | nil => simp
  | cons v vs ih =>
    obtain ⟨hv, hvs⟩ := List.pairwise_cons.mp hvs
    rw [List.mem_cons, ih hvs, List.lookup_cons]
    by_cases hk : key = v.1
    · have hnone : vs.lookup key = none := by
        rw [List.lookup_eq_none_iff]
        intro w hw
        have := hv w hw
        simp only [bne_iff_ne, ne_eq]
        omega
      subst hk
      simp [hnone, Prod.ext_iff, eq_comm]
    · have hne : (key == v.1) = false := by simpa using hk
      simp [hne, hk, Prod.ext_iff]

end WellFormed

/-- After a bulk load of fewer than 2³⁰ keys, every well-formed use without an overflow returns
from each call with the right reply, and each tree on the way stores the map that the calls so
far describe. -/
theorem wellFormed_run_correctMap {vs : List (ℕ × P)} (hvs : Ascending vs)
    (hlen : vs.length < 2 ^ 30) :
    ∃ t : Lipp .exact P, Lipp.load vs = .ok t ∧
      ∀ calls, Meets Lipp.call (fun t c => t.WellFormed c ∧ t.NoOverflow c) t calls →
        ∀ done, done <+: calls → ∃ replies t', run Lipp.call t done = .ok (replies, t') ∧
          Replies Call.apply (fun m c r => r = c.answer m) (vs.lookup ·) done replies ∧
          CorrectMap t' (done.foldl Call.apply (vs.lookup ·)) := by
  obtain ⟨t, hload, hv, hentries⟩ := load_spec hvs hlen fun h2 => separable_exact hvs h2 hlen
  have hstores : StoresMap t (vs.lookup ·) :=
    ⟨hv, fun key value => by rw [hentries]; exact mem_iff_lookup hvs key value⟩
  refine ⟨t, hload, fun calls hmeets done hdone => ?_⟩
  obtain ⟨replies, t', hrun, hreplies, hstores'⟩ :=
    run_refines (fun _ _ _ h hc => h.call hc.1 hc.2) hstores (hmeets.initial hdone)
  exact ⟨replies, t', hrun, hreplies, hstores'.correctMap⟩

section Sample

def Lipp.findsKey (t : Lipp fp P) : Call P → Bool
  | .put _ _ => true
  | .get key => t.entries.any (·.1 = key)
  | .update key _ => t.entries.any (·.1 = key)
  | .remove key => t.entries.any (·.1 = key) && t.entries.length != 1

def Lipp.runsWell (t : Lipp fp P) : List (Call P) → Bool
  | [] => true
  | c :: calls => t.findsKey c && match t.call c with
    | .ok (_, t') => t'.runsWell calls
    | .error _ => false

variable {t' : Lipp fp P} {c : Call P} {r : Reply P}

theorem stored_of_any {key : ℕ} (h : t.entries.any (·.1 = key)) : t.Stored key := by
  obtain ⟨⟨k, v⟩, hmem, hk⟩ := List.any_eq_true.mp h
  obtain rfl := of_decide_eq_true hk
  exact ⟨v, hmem⟩

theorem wellFormed_of_findsKey (hv : t.Valid) (hcall : t.call c = .ok (r, t'))
    (hfinds : t.findsKey c) : t.WellFormed c ∧ t.NoOverflow c := by
  cases c with
  | put key value =>
    obtain ⟨t₁, hinsert, -⟩ := bind_eq_ok.mp hcall
    have hfits := insertFits_of_insert hv hinsert
    refine ⟨⟨fun hs => ?_, hfits.depth⟩, hfits.rebuild⟩
    obtain ⟨v, hdata⟩ := (stored_iff_reach hv).mp hs
    exact (hfits.slots key v hdata).ne rfl
  | get key => exact ⟨stored_of_any hfinds, trivial⟩
  | update key value => exact ⟨stored_of_any hfinds, trivial⟩
  | remove key =>
    obtain ⟨hany, hlength⟩ := (Bool.and_eq_true_iff).mp hfinds
    obtain ⟨removed, hremove, -⟩ := bind_eq_ok.mp hcall
    refine ⟨⟨stored_of_any hany, ?_, by simpa using hlength⟩, trivial⟩
    by_contra hdeep
    cases (remove_deep (not_le.mp hdeep)).symm.trans hremove

theorem meets_of_runsWell {p : Lipp fp P → Call P → Prop}
    (hp : ∀ t c r t', t.Valid → t.call c = .ok (r, t') → t.WellFormed c ∧ t.NoOverflow c → p t c)
    {calls : List (Call P)} (hv : t.Valid) (hruns : t.runsWell calls) :
    Meets Lipp.call p t calls := by
  induction calls generalizing t with
  | nil => trivial
  | cons c calls ih =>
    rw [Lipp.runsWell, Bool.and_eq_true] at hruns
    obtain ⟨hfinds, hrest⟩ := hruns
    cases hcall : t.call c with
    | error e =>
      rw [hcall] at hrest
      cases hrest
    | ok result =>
      obtain ⟨r, t'⟩ := result
      rw [hcall] at hrest
      refine ⟨hp t c r t' hv hcall (wellFormed_of_findsKey hv hcall hfinds), fun r' t'' hcall' => ?_⟩
      obtain ⟨-, rfl⟩ := Prod.mk.inj (Except.ok.inj (hcall.symm.trans hcall'))
      exact ih (hv.call hcall) hrest

def sampleLoad : List (ℕ × ℕ) := (List.range 32).map fun i => (100 * i, i)

def sampleCalls : List (Call ℕ) :=
  [.put 1 7, .get 1, .remove 0, .put 2 7] ++
    (List.range 32).map (fun i => .put (100 * i + 3) i) ++ [.get 3103, .remove 1, .update 3 8]

theorem ascending_sampleLoad : Ascending sampleLoad :=
  List.pairwise_map.mpr (List.pairwise_lt_range.imp fun h => by dsimp only; omega)

theorem length_sampleLoad : sampleLoad.length = 32 := by
  rw [sampleLoad, List.length_map, List.length_range]

theorem runsWell_exact : (Lipp.load sampleLoad).map (fun t : Lipp .exact ℕ =>
    t.runsWell sampleCalls) = .ok true := by decide +kernel

end Sample

theorem wellFormed_run_rebuild : ∃ t : Lipp .exact ℕ, Lipp.load sampleLoad = .ok t ∧
    Meets Lipp.call (fun t c => t.WellFormed c ∧ t.NoOverflow c) t sampleCalls ∧
    ∃ replies t', run Lipp.call t sampleCalls = .ok (replies, t') ∧
      CorrectMap t' (sampleCalls.foldl Call.apply (sampleLoad.lookup ·)) := by
  obtain ⟨t, hload, hruns⟩ :=
    wellFormed_run_correctMap ascending_sampleLoad (by rw [length_sampleLoad]; norm_num)
  obtain ⟨t₁, hload₁, hv, -, hwell⟩ := exists_loaded ascending_sampleLoad
    (by rw [length_sampleLoad]; norm_num) runsWell_exact
  obtain rfl := Except.ok.inj (hload.symm.trans hload₁)
  have hmeets := meets_of_runsWell (fun _ _ _ _ _ _ h => h) hv hwell
  obtain ⟨replies, t', hrun, -, hmap⟩ := hruns _ hmeets _ List.prefix_rfl
  exact ⟨t, hload, hmeets, replies, t', hrun, hmap⟩

theorem load_two_pow_thirty :
    let vs := (List.range (2 ^ 30)).map fun key => (key, key)
    Ascending vs ∧ (Lipp.load vs : Except Fault (Lipp .exact ℕ)) = .error .intOverflow := by
  intro vs
  have hlen : vs.length = 2 ^ 30 := by simp only [vs, List.length_map, List.length_range]
  have hvs : Ascending vs := List.pairwise_map.mpr List.pairwise_lt_range
  refine ⟨hvs, ?_⟩
  rw [Lipp.load, hlen, wrapInt_of_lt (by omega) (by omega)]
  exact bulkLoad_of_ge hvs (by omega) (by omega)

section AnyUse

/-- What keeps a call with any key from a fault: an insert is of an absent key, new nodes separate
their keys, the path is not too long and nothing overflows; a lookup or a removal does not end at
another key; a removal's path is not too long and it does not take the last key from the root. -/
def Lipp.CallFits (t : Lipp fp P) : Call P → Prop
  | .put key value => t.InsertFits key value
  | .get key => t.Own key
  | .update _ _ => True
  | .remove key => t.RemoveFits key

def Call.applyKeys (keys : Set ℕ) : Call P → Set ℕ
  | .put key _ => insert key keys
  | .remove key => keys \ {key}
  | _ => keys

def Call.Found (keys : Set ℕ) : Call P → Reply P → Prop
  | .get key, r => r.ok = true ↔ key ∈ keys
  | _, _ => True

def StoresKeys (t : Lipp fp P) (keys : Set ℕ) : Prop := t.Valid ∧ ∀ key, t.Stored key ↔ key ∈ keys

variable {keys : Set ℕ}

theorem stored_of_perm {t' : Lipp fp P} {k : ℕ} {v w : P} {rest : List (ℕ × P)}
    (hold : t.entries.Perm ((k, v) :: rest)) (hnew : t'.entries.Perm ((k, w) :: rest)) (key : ℕ) :
    t'.Stored key ↔ t.Stored key := by
  simp only [Lipp.Stored, hold.mem_iff, hnew.mem_iff, List.mem_cons, Prod.mk.injEq, exists_or,
    exists_and_left, exists_eq, and_true]

theorem update_stored (hv : t.Valid) (key : ℕ) (value : P) (k : ℕ) :
    (t.update key value).2.Stored k ↔ t.Stored k := by
  rcases reach_cases t.root.toItem key with hempty | ⟨k', v, hdata⟩
  · rw [update_of_empty value hempty, Lipp.Stored, enter_entries, Lipp.Stored]
  · obtain ⟨t', rest, hupdate, -, hold, hnew⟩ := update_of_data hv value hdata
    rw [hupdate]
    exact stored_of_perm hold hnew k

theorem StoresKeys.call (h : StoresKeys t keys) {c : Call P} (hfits : t.CallFits c) :
    ∃ r t', t.call c = .ok (r, t') ∧ c.Found keys r ∧ StoresKeys t' (c.applyKeys keys) := by
  cases c with
  | put key value =>
    obtain ⟨t', hinsert, hv, hperm⟩ := insert_spec h.1 hfits
    refine ⟨_, t', by rw [Lipp.call, hinsert]; rfl, trivial, hv, fun k => ?_⟩
    simp only [Lipp.Stored, hperm.mem_iff, List.mem_cons, Prod.mk.injEq, exists_or,
      exists_and_left, exists_eq, and_true]
    exact or_congr_right (h.2 k)
  | get key =>
    have henter : StoresKeys t.enter.1 keys :=
      ⟨h.1.enter, fun k => by rw [Lipp.Stored, enter_entries]; exact h.2 k⟩
    by_cases hs : t.Stored key
    · obtain ⟨v, hmem⟩ := hs
      refine ⟨_, _, by rw [Lipp.call, at_of_mem h.1 hmem]; rfl, ?_, henter⟩
      exact iff_of_true rfl ((h.2 key).mp ⟨v, hmem⟩)
    · refine ⟨_, _, by rw [Lipp.call, at_of_not_stored h.1 hfits hs]; rfl, ?_, henter⟩
      exact iff_of_false Bool.false_ne_true fun hkey => hs ((h.2 key).mpr hkey)
  | update key value =>
    exact ⟨_, _, rfl, trivial, h.1.update key value, fun k =>
      (update_stored h.1 key value k).trans (h.2 k)⟩
  | remove key =>
    obtain ⟨ok, t', hremove, -, hframe⟩ := (removeFrame_iff h.1).mpr hfits
    refine ⟨_, t', by rw [Lipp.call, hremove]; rfl, trivial, h.1.remove hremove, fun k => ?_⟩
    simp only [Lipp.Stored, hframe, exists_and_right]
    exact and_congr_left' (h.2 k)

end AnyUse

/-- After a bulk load of fewer than 2³⁰ keys that the models separate, no run whose calls all fit
ends in a fault, and its lookups return true exactly for the keys that are stored at their time. -/
theorem callFits_run_returns {vs : List (ℕ × P)} (hvs : Ascending vs) (hlen : vs.length < 2 ^ 30)
    (hsep : 2 ≤ vs.length → Separable fp vs) :
    ∃ t : Lipp fp P, Lipp.load vs = .ok t ∧
      ∀ calls, Meets Lipp.call Lipp.CallFits t calls →
        ∃ replies t', run Lipp.call t calls = .ok (replies, t') ∧
          Replies Call.applyKeys Call.Found {key | ∃ value, (key, value) ∈ vs} calls replies ∧
          ∀ key, t'.Stored key ↔
            key ∈ calls.foldl Call.applyKeys {key | ∃ value, (key, value) ∈ vs} := by
  obtain ⟨t, hload, hv, hentries⟩ := load_spec hvs hlen hsep
  have hstores : StoresKeys t {key | ∃ value, (key, value) ∈ vs} :=
    ⟨hv, fun key => by rw [Lipp.Stored, hentries]; rfl⟩
  refine ⟨t, hload, fun calls hmeets => ?_⟩
  obtain ⟨replies, t', hrun, hreplies, hstores'⟩ :=
    run_refines (fun _ _ _ h hc => h.call hc) hstores hmeets
  exact ⟨replies, t', hrun, hreplies, hstores'.2⟩

theorem runsWell_x86 : (Lipp.load sampleLoad).map (fun t : Lipp .x86 ℕ =>
    t.runsWell sampleCalls) = .ok true := by decide +kernel

theorem callFits_of_wellFormed {t' : Lipp fp P} {c : Call P} {r : Reply P} (hv : t.Valid)
    (hcall : t.call c = .ok (r, t')) (hwell : t.WellFormed c ∧ t.NoOverflow c) : t.CallFits c := by
  cases c with
  | put key value =>
    obtain ⟨t₁, hinsert, -⟩ := bind_eq_ok.mp hcall
    exact insertFits_of_insert hv hinsert
  | get key => exact .of_stored hv hwell.1
  | update key value => trivial
  | remove key =>
    obtain ⟨hs, hdepth, hlength⟩ := hwell.1
    exact ⟨.of_stored hv hs, hdepth, fun hlast => hlength hlast.1.2⟩

theorem callFits_run_rebuild : ∃ t : Lipp .x86 ℕ, Lipp.load sampleLoad = .ok t ∧
    Meets Lipp.call Lipp.CallFits t sampleCalls ∧
    ∃ replies t', run Lipp.call t sampleCalls = .ok (replies, t') ∧
      ∀ key, t'.Stored key ↔
        key ∈ sampleCalls.foldl Call.applyKeys {key | ∃ value, (key, value) ∈ sampleLoad} := by
  have hlength := length_sampleLoad
  obtain ⟨t₁, hload₁, hv, -, hwell⟩ :=
    exists_loaded ascending_sampleLoad (by omega) runsWell_x86
  obtain ⟨t, hload, hruns⟩ := callFits_run_returns ascending_sampleLoad (by omega)
    fun h2 => separable_of_load ascending_sampleLoad h2 (by omega) hload₁
  obtain rfl := Except.ok.inj (hload.symm.trans hload₁)
  have hmeets := meets_of_runsWell
    (fun _ _ _ _ hv hcall hwell => callFits_of_wellFormed hv hcall hwell) hv hwell
  obtain ⟨replies, t', hrun, -, hkeys⟩ := hruns _ hmeets
  exact ⟨t, hload, hmeets, replies, t', hrun, hkeys⟩

theorem calls_loaded_two : (Lipp.load [(1, 10), (5, 50)]).map (fun t : Lipp .x86 ℕ =>
    ((t.call (.get 2)).map (·.1.ok), (t.call (.put 5 55)).map (·.1.ok))) =
    .ok (.error (.rtAssert "node->items[pos].comp.data.key == key"),
      .error (.rtAssert "key1 < key2")) := by
  decide +kernel

theorem eq_error_of_map {α β : Type} {x : Except Fault α} {f : α → β} {e : Fault}
    (h : x.map f = .error e) : x = .error e := by
  cases x with
  | error e' => cases h; rfl
  | ok a => cases h

theorem get_absent_put_present_abort : ∃ t : Lipp .x86 ℕ, Lipp.load [(1, 10), (5, 50)] = .ok t ∧
    t.call (.get 2) = .error (.rtAssert "node->items[pos].comp.data.key == key") ∧
    t.call (.put 5 55) = .error (.rtAssert "key1 < key2") := by
  obtain ⟨t, hload, -, -, heval⟩ := exists_loaded ascending_two (by simp) calls_loaded_two
  obtain ⟨hget, hput⟩ := Prod.ext_iff.mp heval
  exact ⟨t, hload, eq_error_of_map hget, eq_error_of_map hput⟩

end LearnedIndexFramework.Lippol
