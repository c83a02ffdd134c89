import LearnedIndexFramework.Benchmark.Model
import LearnedIndexFramework.Lib.Words

/-! Binary key files: `load_binary_data` byte by byte, and the three generators that write such
files. -/

namespace LearnedIndexFramework.Benchmark

open Lib

/-- An `ifstream`: the bytes not yet read, and `failbit`. -/
structure Stream where
  rest : List UInt8
  failed : Bool := false

/-- `read` into a buffer.  At the end of the file the buffer is filled as far as possible and the
stream fails; a failed stream reads nothing. -/
def Stream.read (is : Stream) (buffer : List UInt8) : List UInt8 × Stream :=
  if is.failed then (buffer, is)
  else (is.rest.take buffer.length ++ buffer.drop is.rest.length, {
    rest := is.rest.drop buffer.length
    failed := is.rest.length < buffer.length })

/-- What the memory of `max_size` and of the new array holds before anything is read into it. -/
structure Memory where
  maxSize : Word
  data : ℕ → UInt8

def toLongLong (w : Word) : ℤ := if w.val < 2 ^ 63 then w.val else (w.val : ℤ) - 2 ^ 64

def loadBinaryFile (mem : Memory) (length : ℤ) :
    Option (List UInt8) → Except Fault (ℤ × List Word)
  | none => .ok (0, [])
  | some bytes =>
    let (head, is) := Stream.read { rest := bytes } mem.maxSize.bytes
    let maxSize := Word.ofBytes head
    let length := if length < 0 ∨ length > maxSize.val then toLongLong maxSize else length
    if length < 0 ∨ 2 ^ 60 ≤ length then .error .length
    else
      let (data, _) := is.read ((List.range (8 * length.toNat)).map mem.data)
      .ok (length, words length.toNat data)

inductive Writer
  | dataGenerator
  | PGM_metric_data_generator
  | MSE_PGM_data_generator
  deriving DecidableEq

/-- The end of `dataGenerator`: it exits when the keys are not increasing, and else writes the
array with the number of keys in front.  The number is an `int`, and so is its successor. -/
def writeCounted (keys : List Word) : Option (List UInt8) :=
  if keys.length + 1 < 2 ^ 31 ∧ keys.IsChain (· < ·) then
    some (bytesOfWords (.ofNat keys.length :: keys))
  else none

def writePlain (keys : List Word) : Option (List UInt8) :=
  if keys.length < 2 ^ 31 then some (bytesOfWords keys) else none

def Writer.write : Writer → List Word → Option (List UInt8)
  | .dataGenerator => writeCounted
  | .PGM_metric_data_generator => writePlain
  | .MSE_PGM_data_generator => writePlain

section Load

variable {mem : Memory} {length : ℤ}

theorem read_of_le {bytes buffer : List UInt8} (h : buffer.length ≤ bytes.length) :
    Stream.read { rest := bytes } buffer =
      (bytes.take buffer.length, { rest := bytes.drop buffer.length }) := by
  rw [Stream.read, List.drop_of_length_le h, List.append_nil]
  simp [Nat.not_lt.mpr h]

theorem loadBinaryFile_counted (mem : Memory) (length : ℤ) (count : Word) (bytes : List UInt8) :
    loadBinaryFile mem length (some (count.bytes ++ bytes)) =
      let length := if length < 0 ∨ length > count.val then toLongLong count else length
      if length < 0 ∨ 2 ^ 60 ≤ length then .error .length
      else .ok (length, words length.toNat
        (bytes.take (8 * length.toNat) ++
          ((List.range (8 * length.toNat)).map mem.data).drop bytes.length)) := by
  have hle : mem.maxSize.bytes.length ≤ (count.bytes ++ bytes).length := by simp
  have htake : (count.bytes ++ bytes).take 8 = count.bytes := List.take_left' count.length_bytes
  have hdrop : (count.bytes ++ bytes).drop 8 = bytes := List.drop_left' count.length_bytes
  simp only [loadBinaryFile, read_of_le hle, Word.length_bytes, htake, hdrop, Word.ofBytes_bytes]
  simp [Stream.read]

def fileWord (mem : Memory) (bytes : List UInt8) (i : ℕ) : Word :=
  Word.ofBytes ((List.range' (8 * i) 8).map fun j => (bytes[j]?).getD (mem.data j))

theorem overlay_eq (bytes : List UInt8) (f : ℕ → UInt8) (m : ℕ) :
    bytes.take m ++ ((List.range m).map f).drop bytes.length =
      (List.range m).map fun j => (bytes[j]?).getD (f j) := by
  refine List.ext_getElem? fun j => ?_
  rcases Nat.lt_or_ge j m with hj | hj
  · rcases Nat.lt_or_ge j bytes.length with hb | hb
    · rw [List.getElem?_append_left (by rw [List.length_take]; omega)]
      simp [hj, hb]
    · have hlen : (bytes.take m).length = bytes.length := by
        rw [List.length_take]
        omega
      rw [List.getElem?_append_right (by omega), List.getElem?_drop, hlen]
      simp [hj, Nat.add_sub_cancel' hb, List.getElem?_eq_none hb]
  · rw [List.getElem?_eq_none (by simp; omega), List.getElem?_eq_none (by simp; omega)]

theorem words_overlay (mem : Memory) (bytes : List UInt8) (n : ℕ) :
    words n (bytes.take (8 * n) ++ ((List.range (8 * n)).map mem.data).drop bytes.length) =
      (List.range n).map (fileWord mem bytes) := by
  refine List.ext_getElem? fun i => ?_
  rcases Nat.lt_or_ge i n with hi | hi
  · rw [getElem?_words hi, overlay_eq, List.getElem?_map, List.getElem?_range hi]
    have hchunk : ((List.range (8 * n)).drop (8 * i)).take 8 = List.range' (8 * i) 8 := by
      refine List.ext_getElem? fun j => ?_
      rw [List.getElem?_take, List.getElem?_drop]
      split
      · next hj => rw [List.getElem?_range (by omega), List.getElem?_range' hj, Nat.one_mul]
      · next hj => rw [List.getElem?_eq_none (by simp; omega)]
    rw [← List.map_drop, ← List.map_take, hchunk]
    rfl
  · rw [List.getElem?_eq_none (by simp; omega), List.getElem?_eq_none (by simp; omega)]

theorem toLongLong_cases (w : Word) :
    (w.val < 2 ^ 60 ∧ toLongLong w = w.val) ∨
      (2 ^ 60 ≤ w.val ∧ (toLongLong w < 0 ∨ 2 ^ 60 ≤ toLongLong w)) := by
  have hlt := w.isLt
  unfold toLongLong
  split <;> omega

theorem loadBinaryFile_eq (mem : Memory) (length : ℤ) (count : Word) (bytes : List UInt8) :
    loadBinaryFile mem length (some (count.bytes ++ bytes)) =
      (loadBinaryData length count.val (fileWord mem bytes)).map fun keys => ((keys.length : ℤ), keys) := by
  rw [loadBinaryFile_counted, loadBinaryData]
  simp only [words_overlay]
  by_cases hlength : length < 0 ∨ length > count.val
  · rw [if_pos hlength, if_pos hlength]
    rcases toLongLong_cases count with ⟨hlt, heq⟩ | ⟨hge, hneg⟩
    · rw [if_neg (by omega), if_pos (by omega), heq]
      simp [Except.map]
    · rw [if_pos hneg, if_neg (by omega)]
      rfl
  · rw [if_neg hlength, if_neg hlength]
    by_cases hlt : length < 2 ^ 60
    · rw [if_neg (by omega), if_pos hlt]
      simp [Except.map]
      omega
    · rw [if_pos (by omega), if_neg hlt]
      rfl

end Load

section RoundTrip

def RoundTrip (bytes : List UInt8) (keys : List Word) : Prop :=
  ∀ mem, loadBinaryFile mem (-1) (some bytes) = .ok (keys.length, keys)

theorem loadBinaryFile_all (mem : Memory) {count : Word} (bytes : List UInt8)
    (hcount : count.val < 2 ^ 60) :
    loadBinaryFile mem (-1) (some (count.bytes ++ bytes)) =
      .ok (count.val, (List.range count.val).map (fileWord mem bytes)) := by
  rw [loadBinaryFile_eq, loadBinaryData, if_pos (by omega), if_pos (by omega)]
  simp [Except.map]

theorem loadBinaryFile_large (mem : Memory) {count : Word} (bytes : List UInt8)
    (hcount : 2 ^ 60 ≤ count.val) :
    loadBinaryFile mem (-1) (some (count.bytes ++ bytes)) = .error .length := by
  have hneg : (-1 : ℤ) < 0 ∨ -1 > (count.val : ℤ) := .inl (by decide)
  rw [loadBinaryFile_eq, loadBinaryData]
  simp only [if_pos hneg]
  rw [if_neg (by omega)]
  rfl

theorem map_fileWord (mem : Memory) (keys : List Word) (rest : List UInt8) :
    (List.range keys.length).map (fileWord mem (bytesOfWords keys ++ rest)) = keys := by
  rw [← words_overlay, List.take_append_of_le_length (by simp), List.take_of_length_le (by simp)]
  exact words_bytesOfWords keys _

theorem roundTrip_counted {count : Word} {keys : List Word} (hcount : count.val = keys.length)
    (hmax : keys.length < 2 ^ 60) : RoundTrip (bytesOfWords (count :: keys)) keys := by
  intro mem
  have hkeys := map_fileWord mem keys []
  rw [List.append_nil] at hkeys
  change loadBinaryFile mem (-1) (some (count.bytes ++ bytesOfWords keys)) = _
  rw [loadBinaryFile_all mem _ (by omega), hcount, hkeys]

def Memory.filled (maxSize : Word) (byte : UInt8) : Memory where
  maxSize
  data _ := byte

theorem fileWord_filled {bytes : List UInt8} {i : ℕ} (hi : bytes.length ≤ 8 * i) (maxSize : Word)
    (byte : UInt8) :
    fileWord (.filled maxSize byte) bytes i = Word.ofBytes (List.replicate 8 byte) := by
  have hmap : (List.range' (8 * i) 8).map
      (fun j => (bytes[j]?).getD ((Memory.filled maxSize byte).data j)) =
      List.replicate 8 byte := by
    refine List.eq_replicate_iff.mpr ⟨by simp, fun b hb => ?_⟩
    obtain ⟨j, hj, rfl⟩ := List.mem_map.mp hb
    have hj : 8 * i ≤ j := (List.mem_range'_1.mp hj).1
    rw [List.getElem?_eq_none (by omega)]
    rfl
  rw [fileWord, hmap]

theorem not_roundTrip_plain (keys : List Word) : ¬ RoundTrip (bytesOfWords keys) keys := by
  intro h
  cases keys with
  | nil =>
    have hload := h (.filled 1 0)
    revert hload
    decide +kernel
  | cons key keys =>
    have hload : ∀ mem, loadBinaryFile mem (-1) (some (key.bytes ++ bytesOfWords keys)) =
        .ok ((keys.length + 1 : ℕ), key :: keys) := h
    by_cases hmax : key.val < 2 ^ 60
    · have hlast : ∀ byte, (key :: keys)[keys.length]? = some (Word.ofBytes (List.replicate 8 byte)) := by
        intro byte
        have hb := (loadBinaryFile_all (.filled 0 byte) (bytesOfWords keys) hmax).symm.trans (hload _)
        obtain ⟨hlength, hwords⟩ := Prod.ext_iff.mp (Except.ok.inj hb)
        have hlength : key.val = keys.length + 1 := Int.ofNat_inj.mp hlength
        have hword := congrArg (fun xs : List Word => xs[keys.length]?) hwords
        simp only [List.getElem?_map, hlength, List.getElem?_range (Nat.lt_succ_self _)] at hword
        rw [← hword]
        simp [fileWord_filled]
      exact absurd (Option.some.inj ((hlast 0).symm.trans (hlast 1))) (by decide)
    · cases (loadBinaryFile_large (.filled 0 0) _ (not_lt.mp hmax)).symm.trans (hload _)

/-- Only the files of `dataGenerator` can be loaded. -/
theorem roundTrip_iff {writer : Writer} {keys : List Word} {bytes : List UInt8}
    (hwrite : writer.write keys = some bytes) :
    RoundTrip bytes keys ↔ writer = .dataGenerator := by
  have hplain : writePlain keys = some bytes → ¬ RoundTrip bytes keys := by
    intro hw
    obtain ⟨-, heq⟩ := Option.ite_none_right_eq_some.mp hw
    obtain rfl := Option.some.inj heq
    exact not_roundTrip_plain keys
  cases writer with
  | dataGenerator =>
    obtain ⟨⟨hlength, -⟩, heq⟩ := Option.ite_none_right_eq_some.mp hwrite
    obtain rfl := Option.some.inj heq
    exact iff_of_true (roundTrip_counted (Word.val_ofNat (by omega)) (by omega)) rfl
  | PGM_metric_data_generator => exact iff_of_false (hplain hwrite) nofun
  | MSE_PGM_data_generator => exact iff_of_false (hplain hwrite) nofun

theorem roundTrip_three : ∃ bytes, Writer.dataGenerator.write [3, 5, 9] = some bytes ∧
    RoundTrip bytes [3, 5, 9] :=
  ⟨_, rfl, (roundTrip_iff rfl).mpr rfl⟩

theorem loadBinaryFile_plain_two : ∃ bytes,
    Writer.PGM_metric_data_generator.write [7, 9] = some bytes ∧
      loadBinaryFile (.filled 0 0) (-1) (some bytes) = .ok (7, [9, 0, 0, 0, 0, 0, 0]) ∧
      ¬ RoundTrip bytes [7, 9] := by
  have hload : loadBinaryFile (.filled 0 0) (-1) (some (bytesOfWords [7, 9])) =
      .ok (7, [9, 0, 0, 0, 0, 0, 0]) := by
    decide +kernel
  refine ⟨_, rfl, hload, fun h => ?_⟩
  cases hload.symm.trans (h (.filled 0 0))

end RoundTrip

end LearnedIndexFramework.Benchmark
