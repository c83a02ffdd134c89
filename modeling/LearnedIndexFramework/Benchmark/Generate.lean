import LearnedIndexFramework.Benchmark.Load

/-! The loop of `generate_operations`: what one draw pushes, and an invariant rule for the whole
loop. -/

namespace LearnedIndexFramework.Benchmark

open Lib

variable {K : Type} {fl : ℚ → ℚ}

section Sampling

variable {position : BitVec 32 → Except Fault ℕ} {array : List K}

theorem readAt_eq_ok {xs : List K} {i : ℕ} {x : K} : readAt xs i = .ok x ↔ xs[i]? = some x := by
  unfold readAt
  split <;> simp_all

theorem searchLoop_ok (hpos : ∀ d, ∃ pos, position d = .ok pos ∧ pos < array.length)
    (draw : ℕ → BitVec 32) (n i : ℕ) :
    ∃ keys, searchLoop position array draw n i = .ok keys ∧ keys.length = n ∧
      ∀ key ∈ keys, key ∈ array := by
  induction n generalizing i with
  | zero => exact ⟨[], rfl, rfl, by simp⟩
  | succ n ih =>
    obtain ⟨pos, hposition, hlt⟩ := hpos (draw i)
    obtain ⟨keys, hkeys, hlen, hmem⟩ := ih (i + 1)
    have hread : readAt array pos = .ok array[pos] :=
      readAt_eq_ok.mpr (List.getElem?_eq_getElem hlt)
    refine ⟨array[pos] :: keys, ?_, by simp [hlen], ?_⟩
    · simp only [searchLoop, hposition, hread, hkeys, bind, Except.bind]
      rfl
    · simpa using hmem

theorem sampleKeys_ok (distribution : SampleDistribution) {numKeys : ℕ} (hpos : 0 < numKeys)
    (hle : numKeys ≤ array.length) (n : ℕ) (draw : ℕ → BitVec 32) :
    ∃ keys, sampleKeys distribution array numKeys n draw = .ok keys ∧ keys.length = n ∧
      ∀ key ∈ keys, key ∈ array := by
  have hmod : ∀ d, d % numKeys < array.length := fun d => (Nat.mod_lt d hpos).trans_le hle
  cases distribution with
  | uniform => exact searchLoop_ok (fun d => ⟨_, if_neg hpos.ne', hmod _⟩) draw n 0
  | zipf => exact searchLoop_ok (fun d => ⟨_, if_neg hpos.ne', hmod _⟩) draw n 0

theorem sampleKeys_zero (distribution : SampleDistribution) (numKeys : ℕ)
    (draw : ℕ → BitVec 32) : sampleKeys distribution array numKeys 0 draw = .ok [] := by
  cases distribution <;> rfl

theorem sampleKeys_empty (array : List K) (distribution : SampleDistribution) {n : ℕ} (hn : 0 < n)
    (draw : ℕ → BitVec 32) :
    sampleKeys distribution array 0 n draw = .error .emptyRange := by
  obtain ⟨n, rfl⟩ := Nat.exists_eq_succ_of_ne_zero hn.ne'
  cases distribution <;> rfl

end Sampling

def kindOf (flags : Flags fl) (prob : ℚ) : Operation :=
  if prob < flags.readRatio then .READ
  else if prob < flags.insertThreshold then .INSERT
  else if prob < flags.updateThreshold then .UPDATE
  else if prob < flags.scanThreshold then .SCAN
  else .DELETE

inductive Pushed (keys : List K) (tableSize : ℕ) (samplePtr : List K) :
    Operation → Cursors K → Cursors K → Prop
  | sample {op : Operation} {c : Cursors K} {key : K} (hinsert : op ≠ .INSERT)
      (hdelete : op ≠ .DELETE) (hkey : samplePtr[c.sampleCounter]? = some key) :
      Pushed keys tableSize samplePtr op c { c with
        operations := c.operations ++ [(op, key)], sampleCounter := c.sampleCounter + 1 }
  | insert {c : Cursors K} {key : K} (hlt : c.insertCounter < tableSize)
      (hkey : keys[c.insertCounter]? = some key) :
      Pushed keys tableSize samplePtr .INSERT c { c with
        operations := c.operations ++ [(.INSERT, key)], insertCounter := c.insertCounter + 1 }
  | delete {c : Cursors K} {key : K} (hlt : c.deleteCounter < tableSize)
      (hkey : keys[c.deleteCounter]? = some key) :
      Pushed keys tableSize samplePtr .DELETE c { c with
        operations := c.operations ++ [(.DELETE, key)], deleteCounter := c.deleteCounter + 1 }

def Exhausted (tableSize : ℕ) (op : Operation) (c : Cursors K) : Prop :=
  (op = .INSERT ∧ tableSize ≤ c.insertCounter) ∨ (op = .DELETE ∧ tableSize ≤ c.deleteCounter)

section Dispatch

variable {keys samplePtr : List K} {tableSize : ℕ}

theorem pushSample_pushed {c : Cursors K} {op : Operation} (hinsert : op ≠ .INSERT)
    (hdelete : op ≠ .DELETE) (hsample : c.sampleCounter < samplePtr.length) :
    ∃ c', c.pushSample samplePtr op = .ok (some c') ∧ Pushed keys tableSize samplePtr op c c' := by
  have hget := List.getElem?_eq_getElem hsample
  refine ⟨_, ?_, .sample hinsert hdelete hget⟩
  simp only [Cursors.pushSample, readAt_eq_ok.mpr hget, bind, Except.bind]
  rfl

theorem dispatch_cases (flags : Flags fl) (c : Cursors K) (prob : ℚ)
    (hsample : c.sampleCounter < samplePtr.length)
    (hkeys : tableSize ≤ keys.length) :
    (c.dispatch flags keys tableSize samplePtr prob = .ok none ∧
        Exhausted tableSize (kindOf flags prob) c) ∨
      ∃ c', c.dispatch flags keys tableSize samplePtr prob = .ok (some c') ∧
        Pushed keys tableSize samplePtr (kindOf flags prob) c c' := by
  unfold Cursors.dispatch kindOf
  split
  · exact .inr (pushSample_pushed (by simp) (by simp) hsample)
  split
  · split
    · next hge => exact .inl ⟨rfl, .inl ⟨rfl, hge⟩⟩
    · next hlt =>
      have hget := List.getElem?_eq_getElem (show c.insertCounter < keys.length by omega)
      refine .inr ⟨_, ?_, .insert (by omega) hget⟩
      simp only [readAt_eq_ok.mpr hget, bind, Except.bind]
      rfl
  split
  · exact .inr (pushSample_pushed (by simp) (by simp) hsample)
  split
  · exact .inr (pushSample_pushed (by simp) (by simp) hsample)
  · split
    · next hge => exact .inl ⟨rfl, .inr ⟨rfl, hge⟩⟩
    · next hlt =>
      have hget := List.getElem?_eq_getElem (show c.deleteCounter < keys.length by omega)
      refine .inr ⟨_, ?_, .delete (by omega) hget⟩
      simp only [readAt_eq_ok.mpr hget, bind, Except.bind]
      rfl

theorem Pushed.sampleCounter_le {op : Operation} {c c' : Cursors K}
    (h : Pushed keys tableSize samplePtr op c c') : c'.sampleCounter ≤ c.sampleCounter + 1 := by
  cases h with
  | sample => exact le_rfl
  | insert => exact Nat.le_succ _
  | delete => exact Nat.le_succ _

end Dispatch

section Loop

variable {flags : Flags fl} {keys samplePtr : List K} {tableSize operationsNum : ℕ}
  {prob : ℕ → {q : ℚ // 0 ≤ q ∧ q < 1}} {Inv : ℕ → Cursors K → Prop}

theorem generateLoop_from (hsample : samplePtr.length = operationsNum)
    (hkeys : tableSize ≤ keys.length)
    (hstep : ∀ i c c', i < operationsNum → Inv i c →
      Pushed keys tableSize samplePtr (kindOf flags (prob i)) c c' → Inv (i + 1) c')
    (n : ℕ) (c : Cursors K) (hn : n ≤ operationsNum) (hc : Inv (operationsNum - n) c)
    (hcount : c.sampleCounter ≤ operationsNum - n) :
    ∃ c' m, generateLoop flags keys tableSize samplePtr prob operationsNum n c = .ok (c', m) ∧
      Inv m c' ∧ m ≤ operationsNum ∧
      (m < operationsNum → Exhausted tableSize (kindOf flags (prob m)) c') := by
  induction n generalizing c with
  | zero => exact ⟨c, operationsNum, rfl, hc, le_rfl, by simp⟩
  | succ n ih =>
    have hlt : c.sampleCounter < samplePtr.length := by omega
    simp only [generateLoop, bind, Except.bind]
    rcases dispatch_cases flags c (prob (operationsNum - (n + 1))).1 hlt hkeys with
      ⟨heq, hend⟩ | ⟨c', heq, hpushed⟩
    · exact ⟨c, operationsNum - (n + 1), by rw [heq]; rfl, hc, by omega, fun _ => hend⟩
    · have hround : operationsNum - (n + 1) + 1 = operationsNum - n := by omega
      have hnext := hstep _ c c' (by omega) hc hpushed
      have hcount' := hpushed.sampleCounter_le
      rw [hround] at hnext
      rw [heq]
      exact ih c' (by omega) hnext (by omega)

theorem generateLoop_induct (hsample : samplePtr.length = operationsNum)
    (hkeys : tableSize ≤ keys.length) (c : Cursors K) (hcount : c.sampleCounter = 0)
    (hinit : Inv 0 c)
    (hstep : ∀ i c c', i < operationsNum → Inv i c →
      Pushed keys tableSize samplePtr (kindOf flags (prob i)) c c' → Inv (i + 1) c') :
    ∃ c' m, generateLoop flags keys tableSize samplePtr prob operationsNum operationsNum c =
        .ok (c', m) ∧ Inv m c' ∧ m ≤ operationsNum ∧
      (m < operationsNum → Exhausted tableSize (kindOf flags (prob m)) c') :=
  generateLoop_from hsample hkeys hstep operationsNum c le_rfl (by simpa using hinit) (by omega)

end Loop

end LearnedIndexFramework.Benchmark
