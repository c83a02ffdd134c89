import LearnedIndexFramework.Alex.Scan

/-! When the scan of `competitor/alexol` returns what the interface promises, and what the scan of
`competitor/alex` returns for the same contents. -/

namespace LearnedIndexFramework.Alexol

open Lib

variable {K P : Type} [LinearOrder K] [OrderTop K]

structure Responsible (before leaves : List (DataNode K P)) (key : K) : Prop where
  before : ∀ e ∈ contents before, e.1 < key
  behind : ∀ e ∈ contents leaves, key < e.1

def entriesAtLeast (leaves : List (DataNode K P)) (key : K) : List (K × P) :=
  (contents leaves).filter fun e => decide (key ≤ e.1)

section

variable (before : List (DataNode K P)) (leaf : DataNode K P) (leaves : List (DataNode K P))
  (key : K) (n : ℕ)

/-- The interface's promise for a scan that starts at a leaf of a chain.  The scan of
`competitor/alex` runs on any leaves with the same contents. -/
structure HonoursScan : Prop where
  result : scan leaf leaves key n = some ((entriesAtLeast (before ++ leaf :: leaves) key).take n)
  agrees : ∀ before' leaf' leaves' outside, Chain (before' ++ leaf' :: leaves') →
    Responsible before' leaves' key →
    contents (before' ++ leaf' :: leaves') = contents (before ++ leaf :: leaves) →
    Alex.scan outside leaf' leaves' key n = scan leaf leaves key n

def Begins : Prop :=
  if key = ⊤ then
    leaf.bitmap.bit (leaf.dataCapacity - 1) = true ↔ ∃ e ∈ leaf.entries, e.1 = key
  else ∃ e ∈ leaf.entries, e.1 = key

structure ScanCondition : Prop where
  entered : leaf.firstKey ≤ key
  fits : n < 2 ^ 32 ∨ (entriesAtLeast (leaf :: leaves) key).length ≤ n % 2 ^ 32
  counts : min n (entriesAtLeast (leaf :: leaves) key).length < 2 ^ 31
  begins : n % 2 ^ 32 = 0 ∨ Begins leaf key
  shown : (entriesAtLeast (leaf :: leaves) key).length ≤ n → ∀ l ∈ leaves, ¬ l.HidesTop

end

variable {before leaves : List (DataNode K P)} {leaf : DataNode K P} {key : K} {n : ℕ}

instance : Decidable leaf.HidesTop :=
  inferInstanceAs (Decidable (_ ∧ ¬ leaf.entries = [] ∧ _))

instance : Decidable (Begins leaf key) := inferInstanceAs (Decidable (ite _ _ _))

instance : Decidable (ScanCondition leaf leaves key n) :=
  decidable_of_iff (leaf.firstKey ≤ key ∧
      (n < 2 ^ 32 ∨ (entriesAtLeast (leaf :: leaves) key).length ≤ n % 2 ^ 32) ∧
      min n (entriesAtLeast (leaf :: leaves) key).length < 2 ^ 31 ∧
      (n % 2 ^ 32 = 0 ∨ Begins leaf key) ∧
      ((entriesAtLeast (leaf :: leaves) key).length ≤ n → ∀ l ∈ leaves, ¬ l.HidesTop))
    ⟨fun ⟨h₁, h₂, h₃, h₄, h₅⟩ => ⟨h₁, h₂, h₃, h₄, h₅⟩,
      fun ⟨h₁, h₂, h₃, h₄, h₅⟩ => ⟨h₁, h₂, h₃, h₄, h₅⟩⟩

omit [LinearOrder K] [OrderTop K] in
theorem contents_append (front back : List (DataNode K P)) :
    contents (front ++ back) = contents front ++ contents back := List.flatMap_append

omit [LinearOrder K] [OrderTop K] in
theorem contents_cons (leaf : DataNode K P) (leaves : List (DataNode K P)) :
    contents (leaf :: leaves) = leaf.entries ++ contents leaves := List.flatMap_cons

omit [OrderTop K] in
theorem Responsible.entriesAtLeast_eq (h : Responsible before leaves key) (leaf : DataNode K P) :
    entriesAtLeast (before ++ leaf :: leaves) key =
      leaf.entries.filter (fun e => decide (key ≤ e.1)) ++ contents leaves := by
  have hbefore : (contents before).filter (fun e => decide (key ≤ e.1)) = [] := by
    rw [List.filter_eq_nil_iff]
    intro e he
    simpa using h.before e he
  have hbehind : (contents leaves).filter (fun e => decide (key ≤ e.1)) = contents leaves := by
    rw [List.filter_eq_self]
    intro e he
    exact decide_eq_true (h.behind e he).le
  rw [entriesAtLeast, contents_append, contents_cons, List.filter_append, List.filter_append,
    hbefore, hbehind, List.nil_append]

omit [OrderTop K] in
theorem Responsible.of_append (h : Responsible before leaves key) :
    Responsible ([] : List (DataNode K P)) leaves key where
  before e he := by cases he
  behind := h.behind

theorem Chain.of_append (h : Chain (before ++ leaves)) : Chain leaves := by
  induction before with
  | nil => exact h
  | cons l before ih => exact ih h.of_cons

theorem take_eq_take_iff {α : Type} {xs ys : List α} {m n : ℕ} (hmn : m ≤ n)
    (hxy : xs = ys ∨ ∃ y, ys = xs ++ [y]) :
    xs.take m = ys.take n ↔ (m = n ∨ ys.length ≤ m) ∧ (ys.length ≤ n → xs = ys) := by
  obtain rfl | ⟨y, rfl⟩ := hxy
  · constructor
    · intro h
      have hlength := congrArg List.length h
      rw [List.length_take, List.length_take] at hlength
      exact ⟨by omega, fun _ => rfl⟩
    · rintro ⟨rfl | hle, -⟩
      · rfl
      · rw [List.take_of_length_le hle, List.take_of_length_le (hle.trans hmn)]
  · have hne : xs ≠ xs ++ [y] := fun h => by simpa using congrArg List.length h
    have hlength : (xs ++ [y]).length = xs.length + 1 := by simp
    constructor
    · intro h
      have htake := congrArg List.length h
      rw [List.length_take, List.length_take, hlength] at htake
      exact ⟨by omega, fun hle => by omega⟩
    · rintro ⟨heq, hshown⟩
      have hlt : ¬ (xs ++ [y]).length ≤ n := fun hle => hne (hshown hle)
      obtain rfl : m = n := by omega
      rw [List.take_append_of_le_length (by omega)]

section Scan

variable (hchain : Chain (leaf :: leaves)) (hbehind : ∀ e ∈ contents leaves, key < e.1)
  (hentered : leaf.firstKey ≤ key)

include hchain hentered

theorem reached_of_begins (hbegins : Begins leaf key) :
    leaf.reached key = leaf.entries.filter fun e => decide (key ≤ e.1) := by
  obtain ⟨hreadable, hsorted, -⟩ := hchain.head
  rw [Begins] at hbegins
  split at hbegins
  case isFalse hne =>
    exact hreadable.reached_of_stored hsorted hbegins hentered fun htop => absurd htop hne
  case isTrue htop =>
    subst htop
    by_cases hstored : ∃ e ∈ leaf.entries, e.1 = ⊤
    · exact hreadable.reached_of_stored hsorted hstored hentered fun _ => hbegins.mpr hstored
    · have hgap : leaf.bitmap.bit (leaf.dataCapacity - 1) = false :=
        Bool.eq_false_iff.mpr fun hbit => hstored (hbegins.mp hbit)
      rw [hreadable.reached_of_gap hgap, eq_comm, List.filter_eq_nil_iff]
      intro e he hle
      exact hstored ⟨e, he, top_le_iff.mp (of_decide_eq_true hle)⟩

include hbehind

theorem take_ne_of_not_begins (hnot : ¬ Begins leaf key) {m : ℕ} (hm : 0 < m) (hmn : m ≤ n) :
    (leaf.reached key ++ reachedBehind leaves).take m ≠
      (leaf.entries.filter (fun e => decide (key ≤ e.1)) ++ contents leaves).take n := by
  obtain ⟨hreadable, hsorted, -⟩ := hchain.head
  have hsmaller (h : ∃ e rest, leaf.reached key = e :: rest ∧ e.1 < key) :
      (leaf.reached key ++ reachedBehind leaves).take m ≠
        (leaf.entries.filter (fun e => decide (key ≤ e.1)) ++ contents leaves).take n := by
    obtain ⟨e, rest, heq, hlt⟩ := h
    intro htake
    have hmem : e ∈ (leaf.entries.filter (fun e => decide (key ≤ e.1)) ++ contents leaves).take n := by
      obtain ⟨k, rfl⟩ := Nat.exists_eq_add_one.mpr hm
      rw [← htake, heq, List.cons_append, List.take_succ_cons]
      exact List.mem_cons_self
    obtain hmem | hmem := List.mem_append.mp (List.mem_of_mem_take hmem)
    · exact absurd hlt (not_lt.mpr (of_decide_eq_true (List.mem_filter.mp hmem).2))
    · exact absurd hlt (hbehind e hmem).not_gt
  rw [Begins] at hnot
  split at hnot
  case isFalse hne =>
    exact hsmaller (hreadable.reached_of_not_stored hnot hentered fun htop => absurd htop hne)
  case isTrue htop =>
    subst htop
    cases hbit : leaf.bitmap.bit (leaf.dataCapacity - 1) with
    | true =>
      refine hsmaller (hreadable.reached_of_not_stored (fun hstored => hnot ?_) hentered
        fun _ => hbit)
      simp [hbit, hstored]
    | false =>
      have hstored : ∃ e ∈ leaf.entries, e.1 = ⊤ := by
        by_contra hnone
        exact hnot (by simp [hbit, hnone])
      have hnil : contents leaves = [] := by
        rw [List.eq_nil_iff_forall_not_mem]
        intro e he
        exact not_top_lt (hbehind e he)
      have hnone : reachedBehind leaves = [] := by
        rw [hchain.of_cons.reachedBehind_eq, hnil]
        intro l hl hhides
        exact hhides.2.1 (List.flatMap_eq_nil_iff.mp hnil l hl)
      rw [hreadable.reached_of_gap hbit, hnone, List.append_nil, List.take_nil, ne_comm]
      intro htake
      obtain ⟨e, he, hkey⟩ := hstored
      have hmem : e ∈ leaf.entries.filter (fun e => decide (⊤ ≤ e.1)) ++ contents leaves := by
        rw [List.mem_append, List.mem_filter]
        exact .inl ⟨he, decide_eq_true hkey.ge⟩
      rw [List.take_eq_nil_iff] at htake
      obtain hzero | hempty := htake
      · omega
      · rw [hempty] at hmem
        cases hmem

theorem take_eq_iff {m : ℕ} (hmn : m ≤ n) :
    (leaf.reached key ++ reachedBehind leaves).take m =
        (leaf.entries.filter (fun e => decide (key ≤ e.1)) ++ contents leaves).take n ↔
      (m = n ∨ (leaf.entries.filter (fun e => decide (key ≤ e.1)) ++ contents leaves).length ≤ m) ∧
      (m = 0 ∨ Begins leaf key) ∧
      ((leaf.entries.filter (fun e => decide (key ≤ e.1)) ++ contents leaves).length ≤ n →
        ∀ l ∈ leaves, ¬ l.HidesTop) := by
  have hbehindEq : (∀ l ∈ leaves, ¬ l.HidesTop) ↔ reachedBehind leaves = contents leaves := by
    constructor
    · exact hchain.of_cons.reachedBehind_eq
    · intro heq l hl hhides
      obtain ⟨e, hcontents⟩ := hchain.of_cons.contents_eq ⟨l, hl, hhides⟩
      rw [heq] at hcontents
      simpa using congrArg List.length hcontents
  rcases Nat.eq_zero_or_pos m with rfl | hm
  · rw [List.take_zero, eq_comm, List.take_eq_nil_iff]
    constructor
    · intro hnil
      have hempty (hle : (leaf.entries.filter (fun e => decide (key ≤ e.1)) ++
          contents leaves).length ≤ n) : contents leaves = [] := by
        obtain rfl | hnil := hnil
        · rw [Nat.le_zero, List.length_eq_zero_iff] at hle
          exact (List.append_eq_nil_iff.mp hle).2
        · exact (List.append_eq_nil_iff.mp hnil).2
      refine ⟨?_, .inl rfl, fun hle l hl hhides => ?_⟩
      · obtain rfl | hnil := hnil
        · exact .inl rfl
        · exact .inr (by rw [hnil]; exact Nat.le_refl 0)
      · exact hhides.2.1 (List.flatMap_eq_nil_iff.mp (hempty hle) l hl)
    · rintro ⟨rfl | hle, -, -⟩
      · exact .inl rfl
      · exact .inr (List.eq_nil_of_length_eq_zero (Nat.eq_zero_of_le_zero hle))
  · by_cases hbegins : Begins leaf key
    · rw [reached_of_begins hchain hentered hbegins, take_eq_take_iff hmn, hbehindEq,
        List.append_cancel_left_eq]
      · simp [hbegins]
      · by_cases hshown : ∀ l ∈ leaves, ¬ l.HidesTop
        · exact .inl (by rw [hbehindEq.mp hshown])
        · push Not at hshown
          obtain ⟨e, heq⟩ := hchain.of_cons.contents_eq hshown
          exact .inr ⟨e, by rw [heq, List.append_assoc]⟩
    · refine ⟨fun h => absurd h (take_ne_of_not_begins hchain hbehind hentered hbegins hm hmn), ?_⟩
      rintro ⟨-, hzero | hbegins', -⟩
      · omega
      · exact absurd hbegins' hbegins

end Scan

/-- The exact condition for the promise. -/
theorem honoursScan_iff (hchain : Chain (before ++ leaf :: leaves))
    (hresponsible : Responsible before leaves key) :
    HonoursScan before leaf leaves key n ↔ ScanCondition leaf leaves key n := by
  have hleaves : Chain (leaf :: leaves) := hchain.of_append
  have hall := hresponsible.entriesAtLeast_eq leaf
  have hfrom := hresponsible.of_append.entriesAtLeast_eq leaf
  rw [List.nil_append] at hfrom
  have hscan := rangeScanBySize_eq hleaves.readable key (n % 2 ^ 32)
  have hmod : n % 2 ^ 32 ≤ n := Nat.mod_le _ _
  constructor
  · rintro ⟨hresult, -⟩
    rw [scan, hscan, hall] at hresult
    split at hresult
    case isFalse => cases hresult
    case isTrue hentered =>
      obtain ⟨htake, hlength⟩ := counted_eq_some.mp hresult
      rw [htake, List.length_take] at hlength
      obtain ⟨hfits, hbegins, hshown⟩ :=
        (take_eq_iff hleaves hresponsible.behind hentered hmod).mp htake
      refine ⟨hentered, ?_, ?_, hbegins, ?_⟩
      · rw [hfrom]
        obtain heq | hle := hfits
        · exact .inl (heq ▸ Nat.mod_lt n (Nat.two_pow_pos 32))
        · exact .inr hle
      · rw [hfrom]
        exact hlength
      · rw [hfrom]
        exact hshown
  · rintro ⟨hentered, hfits, hcounts, hbegins, hshown⟩
    rw [hfrom] at hfits hcounts hshown
    have htake := (take_eq_iff hleaves hresponsible.behind hentered hmod).mpr
      ⟨hfits.imp_left Nat.mod_eq_of_lt, hbegins, hshown⟩
    have hlength : ((leaf.entries.filter (fun e => decide (key ≤ e.1)) ++
        contents leaves).take n).length < 2 ^ 31 := by
      rwa [List.length_take]
    have hresult : scan leaf leaves key n =
        some ((entriesAtLeast (before ++ leaf :: leaves) key).take n) := by
      rw [scan, hscan, if_pos hentered, htake, counted_of_lt hlength, hall]
    refine ⟨hresult, ?_⟩
    intro before' leaf' leaves' outside hchain' hresponsible' hcontents
    have hsame : entriesAtLeast (before' ++ leaf' :: leaves') key =
        entriesAtLeast (before ++ leaf :: leaves) key := by
      rw [entriesAtLeast, hcontents, entriesAtLeast]
    rw [hresult, Alex.scan_eq_counted outside hchain'.of_append.readable,
      ← hresponsible'.entriesAtLeast_eq leaf', hsame, hall, counted_of_lt hlength]

def fiveToNine : DataNode Word ℕ :=
  bulkLoad (.filled (.ofNat 7)) [(.ofNat 5, 50), (.ofNat 9, 90)]

def twenty : DataNode Word ℕ := bulkLoad (.filled (.ofNat 7)) [(.ofNat 20, 200)]

theorem chain_fiveToNine : Chain [fiveToNine, twenty] where
  readable := by
    simp only [List.forall_mem_cons, List.not_mem_nil, false_implies, implies_true, and_true]
    exact ⟨(DataNode.inv_bulkLoad _ (by decide)).readable rfl,
      (DataNode.inv_bulkLoad _ (by decide)).readable rfl⟩
  ascending := by decide +kernel

theorem responsible_fiveToNine {key : Word} (hkey : key < .ofNat 20) :
    Responsible [] [twenty] key where
  before e he := by cases he
  behind := by
    have htwenty : ∀ e ∈ contents [twenty], Word.ofNat 20 ≤ e.1 := by decide +kernel
    intro e he
    exact hkey.trans_le (htwenty e he)

theorem honoursScan_nine : HonoursScan [] fiveToNine [twenty] (.ofNat 9) 5 :=
  (honoursScan_iff chain_fiveToNine (responsible_fiveToNine (by decide))).mpr (by decide +kernel)

theorem not_honoursScan_seven :
    (Chain [fiveToNine, twenty] ∧ Responsible [] [twenty] (Word.ofNat 7) ∧
      scan fiveToNine [twenty] (.ofNat 7) 2 = some [(.ofNat 5, 50), (.ofNat 9, 90)] ∧
      ¬ HonoursScan [] fiveToNine [twenty] (.ofNat 7) 2) ∧
    Responsible [] [twenty] (Word.ofNat 3) ∧ scan fiveToNine [twenty] (.ofNat 3) 2 = none := by
  refine ⟨⟨chain_fiveToNine, responsible_fiveToNine (by decide), by decide +kernel, fun h => ?_⟩,
    responsible_fiveToNine (by decide), by decide +kernel⟩
  have hresult := h.result
  revert hresult
  decide +kernel

end LearnedIndexFramework.Alexol
