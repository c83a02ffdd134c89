import LearnedIndexFramework.Benchmark.Files

/-! Files shorter than their count word says.  `load_binary_data` does not look at the stream behind
its two reads, so it returns the number of keys that were asked for and not that of the keys that
were read. -/

namespace LearnedIndexFramework.Benchmark

open Lib

def wholeKeys (bytes : List UInt8) : ℕ := (bytes.length - 8) / 8

def countWord (bytes : List UInt8) : Word := Word.ofBytes (bytes.take 8)

structure ReadFrom (bytes : List UInt8) (length n : ℤ) (data : List Word) : Prop where
  size : data.length = n
  le_wholeKeys : n ≤ wholeKeys bytes
  le_countWord : n ≤ (countWord bytes).val
  le_length : 0 ≤ length → n ≤ length
  read : data = words data.length (bytes.drop 8)

/-- Enough keys follow for the request or for the count word, or no array can hold so many.  Without
a whole count word there is nothing to ask for. -/
def Suffices (bytes : List UInt8) (length : ℤ) : Prop :=
  if 8 ≤ bytes.length then
    (countWord bytes).val ≤ wholeKeys bytes ∨ (0 ≤ length ∧ length ≤ wholeKeys bytes) ∨
      (2 ^ 60 ≤ (countWord bytes).val ∧ (length < 0 ∨ 2 ^ 60 ≤ length))
  else length = 0

section Requested

variable {bytes head : List UInt8} {is : Stream} {length : ℤ} {n : ℕ}

theorem loadBinaryFile_of_head {mem : Memory}
    (hread : Stream.read { rest := bytes } mem.maxSize.bytes = (head, is)) (hn : n < 2 ^ 60)
    (hlength : n = if length < 0 ∨ length > (Word.ofBytes head).val then
      ((Word.ofBytes head).val : ℤ) else length) :
    loadBinaryFile mem length (some bytes) =
      .ok (n, words n (is.read ((List.range (8 * n)).map mem.data)).1) := by
  have hrequest : (if length < 0 ∨ length > (Word.ofBytes head).val then
      toLongLong (Word.ofBytes head) else length) = n := by
    rcases toLongLong_cases (Word.ofBytes head) with ⟨-, heq⟩ | ⟨hge, -⟩
    · rw [heq, hlength]
    · split at hlength
      · omega
      · next hnot => rw [if_neg hnot, hlength]
  have hrange : ¬ ((n : ℤ) < 0 ∨ 2 ^ 60 ≤ (n : ℤ)) := by omega
  simp only [loadBinaryFile, hread, hrequest, if_neg hrange, Int.toNat_natCast]

theorem exists_request {count : ℕ}
    (hsmall : ¬ (2 ^ 60 ≤ count ∧ (length < 0 ∨ 2 ^ 60 ≤ length))) :
    ∃ n : ℕ, n < 2 ^ 60 ∧ (n : ℤ) = if length < 0 ∨ length > count then (count : ℤ) else length := by
  split
  · exact ⟨count, by omega, rfl⟩
  · next hnot =>
    obtain ⟨n, rfl⟩ := Int.eq_ofNat_of_zero_le (show 0 ≤ length by omega)
    exact ⟨n, by omega, rfl⟩

end Requested

section Counted

variable {bytes : List UInt8} {length : ℤ}

theorem countWord_append (h8 : 8 ≤ bytes.length) :
    (countWord bytes).bytes ++ bytes.drop 8 = bytes := by
  rw [countWord, Word.bytes_ofBytes (List.length_take_of_le h8), List.take_append_drop]

theorem loadBinaryFile_of_counted (mem : Memory) (h8 : 8 ≤ bytes.length) {n : ℕ} (hn : n < 2 ^ 60)
    (hlength : n = if length < 0 ∨ length > (countWord bytes).val then ((countWord bytes).val : ℤ)
      else length) :
    ∃ data, loadBinaryFile mem length (some bytes) = .ok (n, data) ∧ data.length = n ∧
      (n ≤ wholeKeys bytes → data = words n (bytes.drop 8)) := by
  have hread : Stream.read { rest := bytes } mem.maxSize.bytes =
      (bytes.take 8, { rest := bytes.drop 8 }) := by
    rw [read_of_le (by simpa using h8), Word.length_bytes]
  refine ⟨_, loadBinaryFile_of_head hread hn hlength, length_words n _, fun hle => ?_⟩
  rw [wholeKeys] at hle
  rw [read_of_le (by simp; omega), List.length_map, List.length_range, words_take]

theorem loadBinaryFile_of_large (mem : Memory) (h8 : 8 ≤ bytes.length)
    (hcount : 2 ^ 60 ≤ (countWord bytes).val) (hlength : length < 0 ∨ 2 ^ 60 ≤ length) :
    loadBinaryFile mem length (some bytes) = .error .length := by
  have hload := loadBinaryFile_counted mem length (countWord bytes) (bytes.drop 8)
  rw [countWord_append h8] at hload
  have hrequest : (if length < 0 ∨ length > (countWord bytes).val then toLongLong (countWord bytes)
      else length) < 0 ∨ 2 ^ 60 ≤ (if length < 0 ∨ length > (countWord bytes).val then
      toLongLong (countWord bytes) else length) := by
    rcases toLongLong_cases (countWord bytes) with ⟨hlt, -⟩ | ⟨-, hbad⟩
    · omega
    · split
      · exact hbad
      · omega
  simp only [if_pos hrequest] at hload
  exact hload

theorem readFrom_counted_iff (h8 : 8 ≤ bytes.length) :
    (∀ mem n data, loadBinaryFile mem length (some bytes) = .ok (n, data) →
      ReadFrom bytes length n data) ↔
    (countWord bytes).val ≤ wholeKeys bytes ∨ (0 ≤ length ∧ length ≤ wholeKeys bytes) ∨
      (2 ^ 60 ≤ (countWord bytes).val ∧ (length < 0 ∨ 2 ^ 60 ≤ length)) := by
  by_cases hlarge : 2 ^ 60 ≤ (countWord bytes).val ∧ (length < 0 ∨ 2 ^ 60 ≤ length)
  case pos =>
    refine iff_of_true (fun mem n data hload => ?_) (.inr (.inr hlarge))
    cases hload.symm.trans (loadBinaryFile_of_large mem h8 hlarge.1 hlarge.2)
  case neg =>
    obtain ⟨n, hlt, hn⟩ := exists_request hlarge
    constructor
    · intro hall
      obtain ⟨data, hload, -, -⟩ := loadBinaryFile_of_counted (.filled 0 0) h8 hlt hn
      have hle := (hall _ _ _ hload).le_wholeKeys
      split at hn <;> omega
    · intro hcond mem n' data hload
      obtain ⟨data', hload', hsize, hread⟩ := loadBinaryFile_of_counted mem h8 hlt hn
      obtain ⟨rfl, rfl⟩ := Prod.mk.inj (Except.ok.inj (hload'.symm.trans hload))
      have hle : n ≤ wholeKeys bytes := by
        split at hn <;> omega
      refine ⟨by rw [hsize], by exact_mod_cast hle, ?_, fun h0 => ?_, ?_⟩
      · split at hn <;> omega
      · split at hn <;> omega
      · rw [hsize]
        exact hread hle

end Counted

section Short

variable {bytes : List UInt8} {length : ℤ}

theorem read_of_short (hshort : bytes.length < 8) (maxSize : Word) :
    Stream.read { rest := bytes } maxSize.bytes =
      (bytes ++ maxSize.bytes.drop bytes.length, { rest := [], failed := true }) := by
  have hle : bytes.length ≤ maxSize.bytes.length := by
    rw [Word.length_bytes]
    exact hshort.le
  have hfailed : decide (bytes.length < maxSize.bytes.length) = true := by simpa using hshort
  rw [Stream.read, if_neg Bool.false_ne_true]
  simp only [hfailed, List.take_of_length_le hle, List.drop_of_length_le hle]

theorem exists_maxSize (hshort : bytes.length < 8) : ∃ maxSize : Word,
    1 ≤ Lib.ofBytes (bytes ++ maxSize.bytes.drop bytes.length) ∧
      Lib.ofBytes (bytes ++ maxSize.bytes.drop bytes.length) < 2 ^ 60 := by
  have hbytes : (Word.ofNat (2 ^ 56)).bytes = List.replicate 7 0 ++ [1] := by decide
  have hlow : (bytes ++ (List.replicate 7 0).drop bytes.length).length = 7 := by
    simp
    omega
  have hlt := ofBytes_lt (bytes ++ (List.replicate 7 0).drop bytes.length)
  refine ⟨.ofNat (2 ^ 56), ?_⟩
  rw [hbytes, List.drop_append_of_le_length (by simp; omega), ← List.append_assoc, ofBytes_append,
    hlow, show Lib.ofBytes [1] = 1 from rfl]
  rw [hlow] at hlt
  omega

theorem readFrom_short_iff (hshort : bytes.length < 8) :
    (∀ mem n data, loadBinaryFile mem length (some bytes) = .ok (n, data) →
      ReadFrom bytes length n data) ↔ length = 0 := by
  have hwhole : wholeKeys bytes = 0 := by
    rw [wholeKeys]
    omega
  constructor
  · intro hall
    obtain ⟨maxSize, hpos, hlt⟩ := exists_maxSize hshort
    by_contra hne
    have hlen : (bytes ++ maxSize.bytes.drop bytes.length).length = 8 := by
      simp
      omega
    have hval := Word.val_ofBytes hlen
    rw [← hval] at hpos hlt
    obtain ⟨n, hn, hlength⟩ := exists_request fun hlarge => hlt.not_ge hlarge.1
    have hload : loadBinaryFile { maxSize, data := fun _ => 0 } length (some bytes) = _ :=
      loadBinaryFile_of_head (read_of_short hshort maxSize) hn hlength
    have hle := (hall _ _ _ hload).le_wholeKeys
    rw [hwhole] at hle
    split at hlength <;> omega
  · rintro rfl mem n data hload
    have hload' := loadBinaryFile_of_head (n := 0) (read_of_short hshort mem.maxSize)
      (by decide) (if_neg (by omega)).symm
    obtain ⟨rfl, rfl⟩ := Prod.mk.inj (Except.ok.inj (hload'.symm.trans hload))
    exact ⟨rfl, Int.natCast_nonneg _, Int.natCast_nonneg _, fun _ => le_rfl, rfl⟩

end Short

/-- Every key that is returned was read from the file exactly when the file suffices for what is
asked for. -/
theorem loadBinaryFile_readFrom_iff (bytes : List UInt8) (length : ℤ) :
    (∀ mem n data, loadBinaryFile mem length (some bytes) = .ok (n, data) →
      ReadFrom bytes length n data) ↔ Suffices bytes length := by
  rw [Suffices]
  split
  · next h8 => exact readFrom_counted_iff h8
  · next h8 => exact readFrom_short_iff (not_le.mp h8)

theorem loadBinaryFile_header_only :
    loadBinaryFile (.filled 0 7) (-1) (some [3, 0, 0, 0, 0, 0, 0, 0]) =
      .ok (3, List.replicate 3 0x0707070707070707) ∧
    ¬ ∀ mem n data, loadBinaryFile mem (-1) (some [3, 0, 0, 0, 0, 0, 0, 0]) = .ok (n, data) →
      ReadFrom [3, 0, 0, 0, 0, 0, 0, 0] (-1) n data := by
  have hload : loadBinaryFile (.filled 0 7) (-1) (some [3, 0, 0, 0, 0, 0, 0, 0]) =
      .ok (3, List.replicate 3 0x0707070707070707) := by
    decide +kernel
  refine ⟨hload, fun hall => ?_⟩
  exact absurd (hall _ _ _ hload).le_wholeKeys (by decide)

end LearnedIndexFramework.Benchmark
