import LearnedIndexFramework.Lippol.State

/-! What `remove` and `update` do to the entries, for the key they are asked for and for the key
they find. -/

namespace LearnedIndexFramework.Lippol

open Lib Function

variable {fp : Precision} {P : Type} {t t' : Lipp fp P} {key : ℕ}

/-- The descent for the key ends in an empty slot or at the key itself. -/
def Lipp.Own (t : Lipp fp P) (key : ℕ) : Prop :=
  ∀ k v, t.root.toItem.reach key = .data k v → k = key

section Reachable

theorem Lipp.Valid.update (hv : t.Valid) (key : ℕ) (value : P) : (t.update key value).2.Valid := by
  rcases reach_cases t.root.toItem key with hempty | ⟨k, v, hdata⟩
  · rw [update_of_empty value hempty]
    exact hv.enter
  · obtain ⟨t', rest, hupdate, hv', -, -⟩ := update_of_data hv value hdata
    rw [hupdate]
    exact hv'

theorem Lipp.Valid.remove {ok : Bool} (hv : t.Valid) (hremove : t.remove key = .ok (ok, t')) :
    t'.Valid := by
  by_cases hdeep : 128 < t.root.toItem.pathSize key
  · cases (remove_deep hdeep).symm.trans hremove
  rcases reach_cases t.root.toItem key with hempty | ⟨k, v, hdata⟩
  · cases (remove_of_empty (not_lt.mp hdeep) hempty).symm.trans hremove
    exact hv.enter
  · by_cases hlast : t.LastInRoot key
    · cases (remove_lastInRoot hv hdata hlast).symm.trans hremove
    · obtain ⟨t'', hremove', hv', -⟩ := remove_of_data hv (not_lt.mp hdeep) hdata hlast
      cases hremove'.symm.trans hremove
      exact hv'

theorem Lipp.Valid.call {c : Call P} {r : Reply P} (hv : t.Valid)
    (hcall : t.call c = .ok (r, t')) : t'.Valid := by
  cases c with
  | put key value =>
    obtain ⟨t₁, hinsert, hret⟩ := bind_eq_ok.mp hcall
    cases hret
    exact (hv.insert hinsert).1
  | get key =>
    obtain ⟨⟨value, t₁⟩, hat, hret⟩ := bind_eq_ok.mp hcall
    obtain ⟨value', -, hret'⟩ := bind_eq_ok.mp ((at_eq t key).symm.trans hat)
    cases hret
    cases hret'
    exact hv.enter
  | update key value =>
    cases hcall
    exact hv.update key value
  | remove key =>
    obtain ⟨⟨ok, t₁⟩, hremove, hret⟩ := bind_eq_ok.mp hcall
    cases hret
    exact hv.remove hremove

/-- The states after a bulk load of an increasing array and any calls that returned. -/
inductive Reachable : Lipp fp P → Prop
  | load {vs : List (ℕ × P)} {t : Lipp fp P} : Ascending vs → Lipp.load vs = .ok t → Reachable t
  | call {t t' : Lipp fp P} {c : Call P} {r : Reply P} :
      Reachable t → t.call c = .ok (r, t') → Reachable t'

theorem Reachable.valid (ht : Reachable t) : t.Valid := by
  induction ht with
  | load hvs hload => exact load_valid hvs hload
  | call _ hcall ih => exact ih.call hcall

end Reachable

/-- `remove` returns whether the key is stored and takes its entry away, no other. -/
def RemoveFrame (t : Lipp fp P) (key : ℕ) : Prop :=
  ∃ ok t', t.remove key = .ok (ok, t') ∧ (ok = true ↔ t.Stored key) ∧
    ∀ v, v ∈ t'.entries ↔ v ∈ t.entries ∧ v.1 ≠ key

def UpdateFrame (t : Lipp fp P) (key : ℕ) (value : P) : Prop :=
  ((t.update key value).1 = true ↔ t.Stored key) ∧
    ∀ v, v ∈ (t.update key value).2.entries ↔
      v ∈ t.entries ∧ v.1 ≠ key ∨ t.Stored key ∧ v = (key, value)

section Frame

variable {v : P}

theorem Ascending.not_mem_of_perm {vs rest : List (ℕ × P)} (hvs : Ascending vs)
    (hperm : vs.Perm ((key, v) :: rest)) : ∀ w ∈ rest, w.1 ≠ key := by
  have hnodup : (vs.map Prod.fst).Nodup :=
    List.pairwise_map.mpr (hvs.imp fun hlt => hlt.ne)
  have hnodup' := (hperm.map Prod.fst).nodup_iff.mp hnodup
  rw [List.map_cons, List.nodup_cons] at hnodup'
  rintro w hw rfl
  exact hnodup'.1 (List.mem_map.mpr ⟨w, hw, rfl⟩)

theorem mem_of_perm_cons {vs rest : List (ℕ × P)} (hvs : Ascending vs)
    (hperm : vs.Perm ((key, v) :: rest)) (w : ℕ × P) : w ∈ rest ↔ w ∈ vs ∧ w.1 ≠ key := by
  rw [hperm.mem_iff, List.mem_cons]
  constructor
  · exact fun hw => ⟨.inr hw, hvs.not_mem_of_perm hperm w hw⟩
  · rintro ⟨rfl | hw, hne⟩
    · exact absurd rfl hne
    · exact hw

theorem ne_of_not_stored (hns : ¬ t.Stored key) (w : ℕ × P) :
    w ∈ t.entries ↔ w ∈ t.entries ∧ w.1 ≠ key :=
  ⟨fun hw => ⟨hw, fun heq => hns ⟨w.2, heq ▸ hw⟩⟩, And.left⟩

theorem not_stored_of_reach_empty (hv : t.Valid) (hempty : t.root.toItem.reach key = .empty) :
    ¬ t.Stored key := by
  rw [stored_iff_reach hv, hempty]
  exact fun ⟨_, h⟩ => nomatch h

theorem not_stored_of_reach_ne {k : ℕ} (hv : t.Valid) (hdata : t.root.toItem.reach key = .data k v)
    (hne : k ≠ key) : ¬ t.Stored key := by
  rw [stored_iff_reach hv, hdata]
  rintro ⟨w, h⟩
  exact hne (Item.data.inj h).1

theorem stored_of_reach (hv : t.Valid) (hdata : t.root.toItem.reach key = .data key v) :
    t.Stored key := (stored_iff_reach hv).mpr ⟨v, hdata⟩

theorem updateFrame_iff (hv : t.Valid) (value : P) : UpdateFrame t key value ↔ t.Own key := by
  unfold UpdateFrame
  rcases reach_cases t.root.toItem key with hempty | ⟨k, v, hdata⟩
  · have hns := not_stored_of_reach_empty hv hempty
    refine iff_of_true ⟨?_, fun w => ?_⟩ fun k v h => nomatch hempty.symm.trans h
    · simp [update_of_empty value hempty, hns]
    · rw [update_of_empty value hempty, enter_entries, ne_of_not_stored hns w]
      simp [hns]
  · obtain ⟨t', rest, hupdate, -, hold, hnew⟩ := update_of_data hv value hdata
    by_cases hk : k = key
    · subst hk
      have hs := stored_of_reach hv hdata
      refine iff_of_true ⟨by simp [hupdate, hs], fun w => ?_⟩ fun k' v' h => ?_
      · rw [hupdate, hnew.mem_iff, List.mem_cons, mem_of_perm_cons hv.root.ascending hold w]
        simp only [hs, true_and]
        exact or_comm
      · exact (Item.data.inj (hdata.symm.trans h)).1.symm
    · refine iff_of_false (fun h => ?_) fun hown => hk (hown k v hdata)
      exact not_stored_of_reach_ne hv hdata hk (h.1.mp (by rw [hupdate]))

theorem RemoveFrame.own (hv : t.Valid) (hframe : RemoveFrame t key) : t.Own key := by
  obtain ⟨ok, t', hremove, hok, -⟩ := hframe
  intro k v hdata
  by_contra hne
  by_cases hdeep : 128 < t.root.toItem.pathSize key
  · cases (remove_deep hdeep).symm.trans hremove
  by_cases hlast : t.LastInRoot key
  · cases (remove_lastInRoot hv hdata hlast).symm.trans hremove
  · obtain ⟨t'', hremove', -, -⟩ := remove_of_data hv (not_lt.mp hdeep) hdata hlast
    cases hremove'.symm.trans hremove
    exact not_stored_of_reach_ne hv hdata hne (hok.mp rfl)

structure Lipp.RemoveFits (t : Lipp fp P) (key : ℕ) : Prop where
  own : t.Own key
  depth : t.root.toItem.pathSize key ≤ 128
  notLast : ¬ (t.LastInRoot key ∧ t.Stored key)

theorem removeFrame_iff (hv : t.Valid) : RemoveFrame t key ↔ t.RemoveFits key := by
  constructor
  · intro hframe
    have hown := hframe.own hv
    obtain ⟨ok, t', hremove, -⟩ := hframe
    refine ⟨hown, ?_, fun ⟨hlast, hs⟩ => ?_⟩
    · by_contra hdeep
      cases (remove_deep (not_le.mp hdeep)).symm.trans hremove
    · obtain ⟨v, hdata⟩ := (stored_iff_reach hv).mp hs
      cases (remove_lastInRoot hv hdata hlast).symm.trans hremove
  · intro hfits
    rcases reach_cases t.root.toItem key with hempty | ⟨k, v, hdata⟩
    · have hns := not_stored_of_reach_empty hv hempty
      refine ⟨false, t.enter.1, remove_of_empty hfits.depth hempty, by simp [hns], fun w => ?_⟩
      rw [enter_entries]
      exact ne_of_not_stored hns w
    · obtain rfl := hfits.own k v hdata
      have hs := stored_of_reach hv hdata
      obtain ⟨t', hremove, -, hperm⟩ :=
        remove_of_data hv hfits.depth hdata fun hlast => hfits.notLast ⟨hlast, hs⟩
      exact ⟨true, t', hremove, by simp [hs], mem_of_perm_cons hv.root.ascending hperm⟩

end Frame

/-- On a reachable tree the two calls are about the requested key alone exactly when the descent
does not end at another key, the path is not too long, and the last key of the root is not
removed. -/
theorem remove_update_frame_iff (ht : Reachable t) (key : ℕ) (value : P) :
    RemoveFrame t key ∧ UpdateFrame t key value ↔ t.RemoveFits key := by
  rw [updateFrame_iff ht.valid, removeFrame_iff ht.valid]
  exact and_iff_left_of_imp Lipp.RemoveFits.own

section Loaded

variable {β : Type} {vs : List (ℕ × P)} {b : β}

theorem exists_loaded (hvs : Ascending vs) (hmax : vs.length < 2 ^ 31) {f : Lipp fp P → β}
    (heval : (Lipp.load vs).map f = .ok b) :
    ∃ t, Lipp.load vs = .ok t ∧ t.Valid ∧ t.entries = vs ∧ f t = b := by
  cases hload : (Lipp.load vs : Except Fault (Lipp fp P)) with
  | error e =>
    rw [hload] at heval
    cases heval
  | ok t =>
    rw [hload] at heval
    exact ⟨t, rfl, load_valid hvs hload, entries_of_load hvs hmax hload, Except.ok.inj heval⟩

theorem reach_eq_data {item : Item fp P} {k : ℕ} {v : P}
    (h : (item.reach key).entries = [(k, v)]) : item.reach key = .data k v := by
  rcases reach_cases item key with hempty | ⟨k', v', hdata⟩
  · rw [hempty] at h
    cases h
  · rw [hdata] at h ⊢
    cases h
    rfl

theorem ascending_two : Ascending [(1, 10), (5, 50)] := by simp [Ascending]

theorem reach_loaded_two : (Lipp.load [(1, 10), (5, 50)]).map (fun t : Lipp .x86 ℕ =>
    ((t.root.toItem.reach 2).entries, (t.root.toItem.reach 5).entries,
      t.root.toItem.pathSize 5)) = .ok ([(1, 10)], [(5, 50)], 1) := by
  decide +kernel

-- In exact arithmetic the slot is empty, but the prediction is rounded to that of the next key.
example : (Lipp.load [(0, 10), (2 ^ 60, 50)]).map (fun t : Lipp .x86 ℕ =>
    (t.root.toItem.reach (2 ^ 60 - 1)).entries) = .ok [(2 ^ 60, 50)] := by
  decide +kernel

end Loaded

theorem remove_update_absent_two : ∃ t : Lipp .x86 ℕ, Lipp.load [(1, 10), (5, 50)] = .ok t ∧
    Reachable t ∧ ¬ t.Stored 2 ∧ ¬ RemoveFrame t 2 ∧ ¬ UpdateFrame t 2 77 := by
  obtain ⟨t, hload, hv, hentries, heval⟩ := exists_loaded ascending_two (by simp) reach_loaded_two
  have hreach := reach_eq_data (Prod.ext_iff.mp heval).1
  have hown : ¬ t.Own 2 := fun h => absurd (h 1 10 hreach) (by decide)
  refine ⟨t, hload, .load ascending_two hload, ?_, fun h => hown (h.own hv), ?_⟩
  · rintro ⟨v, hmem⟩
    simp [hentries] at hmem
  · rw [updateFrame_iff hv]
    exact hown

theorem remove_update_frame_five : ∃ t : Lipp .x86 ℕ, Lipp.load [(1, 10), (5, 50)] = .ok t ∧
    (RemoveFrame t 5 ∧ UpdateFrame t 5 55) := by
  obtain ⟨t, hload, -, hentries, heval⟩ := exists_loaded ascending_two (by simp) reach_loaded_two
  obtain ⟨-, hreach, hpath⟩ := Prod.ext_iff.mp heval |>.imp_right Prod.ext_iff.mp
  refine ⟨t, hload, (remove_update_frame_iff (.load ascending_two hload) 5 55).mpr ⟨?_, ?_, ?_⟩⟩
  · intro k v hdata
    exact (Item.data.inj ((reach_eq_data hreach).symm.trans hdata)).1.symm
  · exact hpath.trans_le (by decide)
  · rintro ⟨⟨-, hlen⟩, -⟩
    rw [hentries] at hlen
    cases hlen

end LearnedIndexFramework.Lippol
