import Mathlib.Data.List.Destutter
import Mathlib.Data.List.Sort
import LearnedIndexFramework.Lib.Machine

/-! `Benchmark::parse_args`, `load_keys` and `generate_operations`, with the loaders and the
samplers of `utils.h` they call.  Every array access is checked, and what the random number
generators and the standard algorithms leave open is an argument. -/

namespace LearnedIndexFramework.Benchmark

open Lib

inductive Operation
  | READ
  | INSERT
  | DELETE
  | SCAN
  | UPDATE
  deriving DecidableEq, Repr

inductive Fault
  | invariant (cond : String)
  | outOfRange
  | couldNotOpen
  /-- `new T[length]` or `reserve` got a length no array can have. -/
  | length
  | outOfBounds
  | intOverflow
  | conversion
  /-- `uniform_int_distribution` over an empty range, or a remainder by zero. -/
  | emptyRange
  deriving DecidableEq, Repr

/-- Whether the program stops at the fault.  After the others, and they are undefined behaviour,
it may go on with whatever it has read. -/
def Fault.ends : Fault → Bool
  | .invariant _ | .outOfRange | .couldNotOpen | .length => true
  | .outOfBounds | .intOverflow | .conversion | .emptyRange => false

inductive SampleDistribution
  | uniform
  | zipf
  deriving DecidableEq

section Double

-- what a `double` makes of the exact result of one operation
variable (fl : ℚ → ℚ)

def ratioSum (read insert delete update scan : ℚ) : ℚ :=
  fl (fl (fl (fl (read + insert) + delete) + update) + scan)

structure Flags where
  readRatio : ℚ
  insertRatio : ℚ := 0
  deleteRatio : ℚ := 0
  updateRatio : ℚ := 0
  scanRatio : ℚ := 0
  operationsNum : ℤ := 1000000000
  tableSize : ℤ := -1
  initTableRatio : ℚ := 1 / 2
  delTableRatio : ℚ := 1 / 2
  sampleDistribution : SampleDistribution := .uniform
  dataShift : Bool := false
  insert_or_delete : fl (insertRatio + deleteRatio) = insertRatio ∨
    fl (insertRatio + deleteRatio) = deleteRatio
  sum_mem : fl (9999 / 10000) < ratioSum fl readRatio insertRatio deleteRatio updateRatio scanRatio ∧
    ratioSum fl readRatio insertRatio deleteRatio updateRatio scanRatio < fl (10001 / 10000)

structure Args where
  read : ℚ
  insert : Option ℚ := none
  delete : Option ℚ := none
  update : Option ℚ := none
  scan : Option ℚ := none
  operationsNum : Option ℤ := none
  tableSize : Option ℤ := none
  initTableRatio : Option ℚ := none
  delTableRatio : Option ℚ := none
  threadNum : List String
  sampleDistribution : Option String := none
  dataShift : Bool := false

def stoi (z : ℤ) : Except Fault ℤ :=
  if -2 ^ 31 ≤ z ∧ z < 2 ^ 31 then .ok z else .error .outOfRange

def parseArgs (args : Args) : Except Fault (Flags fl) := do
  let readRatio := fl args.read
  let insertRatio := fl (args.insert.getD 0)
  let deleteRatio := fl (args.delete.getD 0)
  let updateRatio := fl (args.update.getD 0)
  let scanRatio := fl (args.scan.getD 0)
  let operationsNum ← stoi (args.operationsNum.getD 1000000000)
  let tableSize ← stoi (args.tableSize.getD (-1))
  let sum := ratioSum fl readRatio insertRatio deleteRatio updateRatio scanRatio
  let insertDelete := fl (insertRatio + deleteRatio)
  if hid : insertDelete = insertRatio ∨ insertDelete = deleteRatio then
    if hsum : fl (9999 / 10000) < sum ∧ sum < fl (10001 / 10000) then
      let sampleDistribution ← match args.sampleDistribution.getD "uniform" with
        | "zipf" => .ok .zipf
        | "uniform" => .ok .uniform
        | _ => .error (.invariant "sample_distribution == \"zipf\" || sample_distribution == \"uniform\"")
      if 0 < args.threadNum.length then
        return {
          readRatio, insertRatio, deleteRatio, updateRatio, scanRatio, operationsNum, tableSize
          initTableRatio := fl (args.initTableRatio.getD (1 / 2))
          delTableRatio := fl (args.delTableRatio.getD (1 / 2))
          sampleDistribution
          dataShift := args.dataShift
          insert_or_delete := hid
          sum_mem := hsum }
      else .error (.invariant "all_thread_num.size() > 0")
    else .error (.invariant "ratio_sum > 0.9999 && ratio_sum < 1.0001")
  else .error (.invariant "insert_delete == insert_ratio || insert_delete == delete_ratio")

end Double

section Flags

variable {fl : ℚ → ℚ} (flags : Flags fl)

def Flags.initProduct (tableSize : ℕ) : ℚ := fl (flags.initTableRatio * fl tableSize)

def Flags.deleteProduct (tableSize : ℕ) : ℚ :=
  fl (fl tableSize * fl (1 - flags.delTableRatio))

def Flags.insertThreshold : ℚ := fl (flags.readRatio + flags.insertRatio)

def Flags.updateThreshold : ℚ := fl (flags.insertThreshold + flags.updateRatio)

def Flags.scanThreshold : ℚ := fl (flags.updateThreshold + flags.scanRatio)

end Flags

variable {K : Type}

/-- A key file.  `word i` is what the array holds at `i` after the binary file was read into
it; past the end of a short file that is whatever the memory held. -/
inductive KeyFile (K : Type)
  | missing
  | unknownType
  | binary (maxSize : ℕ) (word : ℕ → K)
  | text (lines : List K)

/-- Arrays of `2 ^ 60` and more eight-byte keys cannot be allocated. -/
def loadBinaryData (length : ℤ) (maxSize : ℕ) (word : ℕ → K) : Except Fault (List K) :=
  let length := if length < 0 ∨ length > maxSize then (maxSize : ℤ) else length
  if length < 2 ^ 60 then .ok ((List.range length.toNat).map word) else .error .length

/-- The copy into the array counts its lines with an `int`. -/
def loadTextData (length : ℤ) (lines : List K) : Except Fault (List K) :=
  let tempKeys := if length < 0 then lines else lines.take length.toNat
  if tempKeys.length < 2 ^ 31 then .ok tempKeys else .error .intOverflow

def KeyFile.load (tableSize : ℤ) : KeyFile K → Except Fault (List K)
  | .missing => .ok []
  | .binary maxSize word => loadBinaryData tableSize maxSize word
  | .text lines => loadTextData tableSize lines
  | .unknownType => .error .couldNotOpen

def readKeyFile (tableSize : ℤ) (file : KeyFile K) : Except Fault (List K) := do
  let keys ← file.load tableSize
  if keys.length ≤ 0 then .error .couldNotOpen else return keys

def toSizeT (q : ℚ) : Except Fault ℕ :=
  if 0 ≤ truncate q ∧ truncate q < 2 ^ 64 then .ok (truncate q).toNat else .error .conversion

def readAt (xs : List K) (i : ℕ) : Except Fault K :=
  match xs[i]? with
  | some x => .ok x
  | none => .error .outOfBounds

def readPrefix (xs : List K) (n : ℕ) : Except Fault (List K) :=
  if n ≤ xs.length then .ok (xs.take n) else .error .outOfBounds

/-- `init_keys.resize`, which throws beyond the `max_size` of a vector of eight-byte keys. -/
def resize (n : ℕ) : Except Fault ℕ :=
  if n < 2 ^ 60 then .ok n else .error .length

/-- What the source leaves to random number generators, and the order and the values that the
standard leaves open. -/
structure Oracle (K : Type) where
  shuffle : ∀ xs : List K, {ys : List K // ys.Perm xs}
  /-- The elements `std::unique` leaves behind its result. -/
  leftover : ∀ n : ℕ, {ys : List K // ys.length = n}
  randomShuffle : ∀ xs : List K, {ys : List K // ys.Perm xs}
  draw : ℕ → BitVec 32
  prob : ℕ → {q : ℚ // 0 ≤ q ∧ q < 1}

/-- What `load_keys` leaves behind.  `keys` is the whole allocated array, of which the first
`tableSize` elements are in use. -/
structure Loaded (K : Type) where
  keys : List K
  tableSize : ℕ
  initTableSize : ℕ
  initKeys : List K
  initKeyValues : List (K × ℕ)

section Order

variable [LinearOrder K] {fl : ℚ → ℚ}

def sortUnique (xs : List K) : List K := (xs.insertionSort (· ≤ ·)).destutter (· ≠ ·)

def arrange (flags : Flags fl) (o : Oracle K) (array : List K) : List K × ℕ :=
  if flags.dataShift then (array, array.length)
  else
    let unique := sortUnique array
    ((o.shuffle unique).1 ++ (o.leftover (array.length - unique.length)).1, unique.length)

def loadKeys (flags : Flags fl) (o : Oracle K) (file : KeyFile K) : Except Fault (Loaded K) := do
  let array ← readKeyFile flags.tableSize file
  let (keys, tableSize) := arrange flags o array
  let initTableSize ← toSizeT (flags.initProduct tableSize)
  -- the first ten keys are printed, however many there are
  let _ ← readPrefix keys 10
  let initTableSize ← resize initTableSize
  let copied ← readPrefix keys initTableSize
  let initKeys := copied.insertionSort (· ≤ ·)
  if initKeys.length < 2 ^ 31 then
    return { keys, tableSize, initTableSize, initKeys, initKeyValues := initKeys.map (·, 123456789) }
  else .error .intOverflow

end Order

def fnv1a (fourBytes : BitVec 32) : BitVec 32 :=
  let byte (hash : BitVec 32) (i : ℕ) : BitVec 32 :=
    ((fourBytes >>> (8 * i)) &&& 0xff#32 ^^^ hash) * 0x01000193#32
  [0, 1, 2, 3].foldl byte 0x811C9DC5#32

def uniformPosition (numKeys : ℕ) (draw : BitVec 32) : Except Fault ℕ :=
  if numKeys = 0 then .error .emptyRange else .ok (draw.toNat % numKeys)

/-- `ScrambledZipfianGenerator::nextValue`; the draw is the rank before it is scrambled. -/
def zipfPosition (numKeys : ℕ) (draw : BitVec 32) : Except Fault ℕ :=
  if numKeys = 0 then .error .emptyRange else .ok ((fnv1a draw).toNat % numKeys)

/-- The common loop of `get_search_keys` and `get_search_keys_zipf`, from search `i` on. -/
def searchLoop (position : BitVec 32 → Except Fault ℕ) (array : List K) (draw : ℕ → BitVec 32) :
    ℕ → ℕ → Except Fault (List K)
  | 0, _ => .ok []
  | n + 1, i => do
    let pos ← position (draw i)
    let key ← readAt array pos
    let keys ← searchLoop position array draw n (i + 1)
    return key :: keys

def getSearchKeys (array : List K) (numKeys numSearches : ℕ) (draw : ℕ → BitVec 32) :
    Except Fault (List K) :=
  searchLoop (uniformPosition numKeys) array draw numSearches 0

def getSearchKeysZipf (array : List K) (numKeys numSearches : ℕ) (draw : ℕ → BitVec 32) :
    Except Fault (List K) :=
  searchLoop (zipfPosition numKeys) array draw numSearches 0

def sampleKeys (distribution : SampleDistribution) (array : List K) (numKeys numSearches : ℕ)
    (draw : ℕ → BitVec 32) : Except Fault (List K) :=
  match distribution with
  | .uniform => getSearchKeys array numKeys numSearches draw
  | .zipf => getSearchKeysZipf array numKeys numSearches draw

structure Cursors (K : Type) where
  operations : List (Operation × K) := []
  sampleCounter : ℕ := 0
  insertCounter : ℕ
  deleteCounter : ℕ

section Dispatch

variable {fl : ℚ → ℚ} (flags : Flags fl) (keys : List K) (tableSize : ℕ) (samplePtr : List K)

def Cursors.pushSample (c : Cursors K) (op : Operation) : Except Fault (Option (Cursors K)) := do
  let key ← readAt samplePtr c.sampleCounter
  return some { c with
    operations := c.operations ++ [(op, key)]
    sampleCounter := c.sampleCounter + 1 }

/-- The body of the loop for one draw; `none` is the `break`. -/
def Cursors.dispatch (c : Cursors K) (prob : ℚ) : Except Fault (Option (Cursors K)) :=
  if prob < flags.readRatio then c.pushSample samplePtr .READ
  else if prob < flags.insertThreshold then
    if c.insertCounter ≥ tableSize then .ok none
    else do
      let key ← readAt keys c.insertCounter
      return some { c with
        operations := c.operations ++ [(.INSERT, key)]
        insertCounter := c.insertCounter + 1 }
  else if prob < flags.updateThreshold then
    c.pushSample samplePtr .UPDATE
  else if prob < flags.scanThreshold then
    c.pushSample samplePtr .SCAN
  else
    if c.deleteCounter ≥ tableSize then .ok none
    else do
      let key ← readAt keys c.deleteCounter
      return some { c with
        operations := c.operations ++ [(.DELETE, key)]
        deleteCounter := c.deleteCounter + 1 }

/-- The loop, with the number of rounds still to go; it returns the final `operations_num`,
which the `break` sets to the current round. -/
def generateLoop (prob : ℕ → {q : ℚ // 0 ≤ q ∧ q < 1}) (operationsNum : ℕ) :
    ℕ → Cursors K → Except Fault (Cursors K × ℕ)
  | 0, c => .ok (c, operationsNum)
  | n + 1, c => do
    let i := operationsNum - (n + 1)
    match ← c.dispatch flags keys tableSize samplePtr (prob i).1 with
    | none => return (c, i)
    | some c => generateLoop prob operationsNum n c

end Dispatch

structure Workload (K : Type) where
  operations : List (Operation × K)
  operationsNum : ℕ
  deriving DecidableEq

section Order

variable [LinearOrder K] {fl : ℚ → ℚ}

def shiftRest (flags : Flags fl) (o : Oracle K) (loaded : Loaded K) : Except Fault (List K) :=
  if flags.dataShift then
    if loaded.tableSize < loaded.initTableSize then .error .outOfBounds
    else
      let rest := (loaded.keys.take loaded.tableSize).drop loaded.initTableSize
      .ok (loaded.keys.take loaded.initTableSize ++
        (o.randomShuffle (rest.insertionSort (· ≤ ·))).1 ++ loaded.keys.drop loaded.tableSize)
  else .ok loaded.keys

def generateOperations (flags : Flags fl) (o : Oracle K) (loaded : Loaded K) :
    Except Fault (Workload K) := do
  if flags.operationsNum < 0 then throw .length
  let operationsNum := flags.operationsNum.toNat
  let samplePtr ← sampleKeys flags.sampleDistribution loaded.initKeys loaded.initTableSize
    operationsNum o.draw
  let deleteCounter ← toSizeT (flags.deleteProduct loaded.tableSize)
  let keys ← shiftRest flags o loaded
  let (c, operationsNum) ← generateLoop flags keys loaded.tableSize samplePtr o.prob operationsNum
    operationsNum { insertCounter := loaded.initTableSize, deleteCounter }
  return { operations := c.operations, operationsNum }

def prepareWorkload (flags : Flags fl) (o : Oracle K) (file : KeyFile K) :
    Except Fault (Loaded K × Workload K) := do
  let loaded ← loadKeys flags o file
  let workload ← generateOperations flags o loaded
  return (loaded, workload)

end Order

end LearnedIndexFramework.Benchmark
