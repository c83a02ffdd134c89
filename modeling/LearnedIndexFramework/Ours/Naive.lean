import LearnedIndexFramework.Lib.OrderedMap
import LearnedIndexFramework.Pgm.Indexed

/-! The naive index, a `std::map`, and its agreement with the dynamic PGM index. -/

namespace LearnedIndexFramework.Ours

open Lib Pgm Function

variable {V : Type}

abbrev Naive (V : Type) := OrderedMap Word V

namespace Naive

/-- `bulk_load`: of the pairs with one key, the first one is kept. -/
def bulkLoad (keyValue : List (Word × V)) : Naive V :=
  keyValue.foldl (fun map pair => map.insert pair.1 pair.2) .empty

def call (map : Naive V) : Call Word V → Except Stop (Reply Word V × Naive V)
  | .get key => .ok (.get (map.find key), map)
  | .put key value | .update key value => .ok (.done true, map.set key value)
  | .remove key => .ok (.done true, if (map.find key).isSome then map.erase key else map)
  | .scan keyLowBound keyNum => .ok (.scan ((map.above keyLowBound).take keyNum), map)

def apply (m : Word → Option V) : Call Word V → Word → Option V
  | .put key value | .update key value => update m key (some value)
  | .remove key => update m key none
  | .get _ | .scan _ _ => m

def Answers (m : Word → Option V) : Call Word V → Reply Word V → Prop
  | .get key, r => r = .get (m key)
  | .put _ _, r | .update _ _, r | .remove _, r => r = .done true
  | .scan keyLowBound keyNum, r =>
    ∃ result, r = .scan result ∧ Lists m (keyLowBound ≤ ·) keyNum result

variable {map : Naive V} {m : Word → Option V} {keyValue : List (Word × V)}
  {calls : List (Call Word V)} {replies replies' : List (Reply Word V)}

theorem find_foldl_insert (keyValue : List (Word × V)) (map : Naive V) (k : Word) :
    (keyValue.foldl (fun map pair => map.insert pair.1 pair.2) map).find k =
      (map.find k).or (DynamicPgm.firstPair keyValue k) := by
  induction keyValue generalizing map with
  | nil => exact Option.or_none.symm
  | cons pair rest ih =>
    rw [List.foldl_cons, ih, OrderedMap.find_insert, DynamicPgm.firstPair_cons]
    by_cases hk : k = pair.1
    · subst hk
      rw [if_pos rfl, if_pos rfl, Option.some_or]
      cases map.find pair.1 <;> rfl
    · rw [if_neg hk, if_neg (Ne.symm hk)]

theorem find_bulkLoad (keyValue : List (Word × V)) :
    (bulkLoad keyValue).find = DynamicPgm.firstPair keyValue := by
  funext k
  rw [bulkLoad, find_foldl_insert, OrderedMap.find_empty, Option.none_or]

theorem find_set_eq (map : Naive V) (key : Word) (value : V) :
    (map.set key value).find = update map.find key (some value) := by
  funext k
  rw [OrderedMap.find_set, update_apply]

theorem find_erase_eq (map : Naive V) (key : Word) :
    (if (map.find key).isSome then map.erase key else map).find = update map.find key none := by
  funext k
  rw [update_apply]
  split
  case isTrue => exact OrderedMap.find_erase map key k
  case isFalse h =>
    split
    case isTrue hk => rw [hk, Option.not_isSome_iff_eq_none.mp h]
    case isFalse => rfl

theorem call_answers (hfind : map.find = m) (c : Call Word V) :
    ∃ r map', call map c = .ok (r, map') ∧ Answers m c r ∧ map'.find = apply m c := by
  subst hfind
  cases c with
  | get key => exact ⟨_, _, rfl, rfl, rfl⟩
  | put key value => exact ⟨_, _, rfl, rfl, find_set_eq map key value⟩
  | update key value => exact ⟨_, _, rfl, rfl, find_set_eq map key value⟩
  | remove key => exact ⟨_, _, rfl, rfl, find_erase_eq map key⟩
  | scan keyLowBound keyNum =>
    exact ⟨_, _, rfl, ⟨_, rfl, map.take_above_lists keyLowBound keyNum⟩, rfl⟩

theorem bulkLoad_run (keyValue : List (Word × V)) (calls : List (Call Word V)) :
    ∃ replies map', run call (bulkLoad keyValue) calls = .ok (replies, map') ∧
      Replies apply Answers (DynamicPgm.firstPair keyValue) calls replies ∧
      map'.find = calls.foldl apply (DynamicPgm.firstPair keyValue) :=
  run_refines (fun _ _ c hfind _ => call_answers hfind c) (find_bulkLoad keyValue)
    (@Meets.of_forall _ _ _ _ call (fun _ _ => True) (fun _ _ => trivial) _ calls)

section Agree

variable [DecidableEq V] [Top V]

/-- A call does not assign the value that the PGM index reserves for deleted keys. -/
def Unreserved : Call Word V → Prop
  | .put _ value | .update _ value => value ≠ ⊤
  | _ => True

theorem apply_eq {c : Call Word V} (h : Unreserved c) : c.apply m = apply m c := by
  cases c with
  | put key value => exact if_neg h
  | update key value => exact if_neg h
  | _ => rfl

theorem reply_eq {c : Call Word V} {r r' : Reply Word V} (h : Unreserved c)
    (hr : c.Answers m r) (hr' : Answers m c r') : r = r' := by
  cases c with
  | get key => exact hr.trans hr'.symm
  | put key value => exact (hr.trans (if_neg h)).trans hr'.symm
  | update key value => exact (hr.trans (if_neg h)).trans hr'.symm
  | remove key => exact hr.trans hr'.symm
  | scan keyLowBound keyNum =>
    obtain ⟨result, rfl, hlists⟩ := hr
    obtain ⟨result', rfl, hlists'⟩ := hr'
    rw [hlists.unique hlists']

theorem unreserved_of_reply {c : Call Word V} {m' : Word → Option V} {r : Reply Word V}
    (hr : c.Answers m r) (hr' : Answers m' c r) : Unreserved c := by
  cases c with
  | put key value =>
    intro htop
    cases (hr.trans (if_pos htop)).symm.trans hr'
  | update key value =>
    intro htop
    cases (hr.trans (if_pos htop)).symm.trans hr'
  | _ => trivial

theorem replies_eq (h : ∀ c ∈ calls, Unreserved c)
    (hreplies : Replies Call.apply Call.Answers m calls replies)
    (hreplies' : Replies apply Answers m calls replies') : replies = replies' := by
  induction hreplies generalizing replies' with
  | nil =>
    cases hreplies'
    rfl
  | cons hr _ ih =>
    cases hreplies' with
    | cons hr' hrest =>
      have hc := h _ List.mem_cons_self
      rw [← apply_eq hc] at hrest
      rw [reply_eq hc hr hr', ih (fun c hc => h c (List.mem_cons_of_mem _ hc)) hrest]

theorem unreserved_of_replies {m' : Word → Option V}
    (hreplies : Replies Call.apply Call.Answers m calls replies)
    (hreplies' : Replies apply Answers m' calls replies) : ∀ c ∈ calls, Unreserved c := by
  induction hreplies generalizing m' with
  | nil => exact fun c hc => absurd hc List.not_mem_nil
  | cons hr _ ih =>
    cases hreplies' with
    | cons hr' hrest =>
      intro c hc
      rcases List.mem_cons.mp hc with rfl | hc
      · exact unreserved_of_reply hr hr'
      · exact ih hrest c hc

theorem foldl_apply_eq (h : ∀ c ∈ calls, Unreserved c) (m : Word → Option V) :
    calls.foldl Call.apply m = calls.foldl apply m := by
  induction calls generalizing m with
  | nil => rfl
  | cons c cs ih =>
    rw [List.foldl_cons, List.foldl_cons, apply_eq (h c List.mem_cons_self),
      ih fun c hc => h c (List.mem_cons_of_mem _ hc)]

/-- The dynamic PGM index answers a run as the naive index does, and ends with the same entries,
just when no call assigns the reserved value. -/
theorem pgm_agrees_iff {parallelism : ℕ} (hload : DynamicPgm.Loadable keyValue)
    (hkeys : Manageable (keyValue.length + calls.length) (keysOf keyValue calls))
    (hparallelism : 0 < parallelism) (htwenty : parallelism ≤ 20) :
    ∃ t replies t' replies' map', DynamicPgm.ofRange keyValue = .ok t ∧
      run (DynamicPgm.call (staticSearch parallelism)) t calls = .ok (replies, t') ∧
      run call (bulkLoad keyValue) calls = .ok (replies', map') ∧
      (replies = replies' ∧ view t'.levels = map'.find ↔ ∀ c ∈ calls, Unreserved c) := by
  obtain ⟨t, replies, t', hofRange, hrun, hreplies, hstores, -⟩ := load_run hload hkeys.lt_top
    (fun pair hpair => mem_keysOf_of_pair hpair) (fun c hc => mem_keysOf_of_call hc) le_rfl
    (hkeys.brackets hparallelism htwenty)
  obtain ⟨replies', map', hrun', hreplies', hfind⟩ := bulkLoad_run keyValue calls
  refine ⟨t, replies, t', replies', map', hofRange, hrun, hrun', fun h => ?_, fun h => ?_⟩
  · obtain ⟨rfl, -⟩ := h
    exact unreserved_of_replies hreplies hreplies'
  · refine ⟨replies_eq h hreplies hreplies', ?_⟩
    rw [hfind, ← foldl_apply_eq h]
    exact funext hstores.view_eq

theorem pgm_agrees_many_pairs :
    ∃ t replies t' replies' map', DynamicPgm.ofRange (evenPairs 2100000) = .ok t ∧
      run (DynamicPgm.call (staticSearch 20)) t (manyCalls 600) = .ok (replies, t') ∧
      run call (bulkLoad (evenPairs 2100000)) (manyCalls 600) = .ok (replies', map') ∧
      (replies = replies' ∧ view t'.levels = map'.find ↔ ∀ c ∈ manyCalls 600, Unreserved c) :=
  pgm_agrees_iff (loadable_evenPairs (by norm_num))
    (.of_lt (fun _ hk => lt_of_mem_many (by norm_num) hk) (length_many (by norm_num)))
    (by decide) (by decide)

end Agree

end Naive

end LearnedIndexFramework.Ours
