import Mathlib.Algebra.Order.Ring.Nat
import Mathlib.Data.List.Basic
import Mathlib.Data.UInt

/-! Arrays of unsigned words in memory: eight bytes each, the least significant first. -/

namespace LearnedIndexFramework.Lib

def bytesOf : ℕ → ℕ → List UInt8
  | 0, _ => []
  | n + 1, x => UInt8.ofNat x :: bytesOf n (x / 256)

def ofBytes : List UInt8 → ℕ
  | [] => 0
  | b :: bs => b.toNat + 256 * ofBytes bs

@[simp] theorem length_bytesOf (n x : ℕ) : (bytesOf n x).length = n := by
  induction n generalizing x with
  | zero => rfl
  | succ n ih => rw [bytesOf, List.length_cons, ih]

theorem ofBytes_bytesOf {n x : ℕ} (hx : x < 256 ^ n) : ofBytes (bytesOf n x) = x := by
  induction n generalizing x with
  | zero =>
    rw [pow_zero] at hx
    exact (Nat.lt_one_iff.mp hx).symm
  | succ n ih =>
    have hdiv : x / 256 < 256 ^ n := Nat.div_lt_of_lt_mul (by rwa [pow_succ'] at hx)
    rw [bytesOf, ofBytes, ih hdiv, UInt8.toNat_ofNat']
    exact Nat.mod_add_div x 256

theorem bytesOf_ofBytes (bs : List UInt8) : bytesOf bs.length (ofBytes bs) = bs := by
  induction bs with
  | nil => rfl
  | cons b bs ih =>
    have hb : b.toNat < 256 := b.toNat_lt
    have hdiv : (b.toNat + 256 * ofBytes bs) / 256 = ofBytes bs := by omega
    have hmod : UInt8.ofNat (b.toNat + 256 * ofBytes bs) = b := by
      refine UInt8.toNat_inj.mp ?_
      rw [UInt8.toNat_ofNat']
      omega
    rw [List.length_cons, ofBytes, bytesOf, hdiv, hmod, ih]

theorem ofBytes_lt (bs : List UInt8) : ofBytes bs < 256 ^ bs.length := by
  induction bs with
  | nil => exact Nat.one_pos
  | cons b bs ih =>
    have hb : b.toNat < 256 := b.toNat_lt
    rw [ofBytes, List.length_cons, pow_succ']
    omega

theorem ofBytes_append (bs bs' : List UInt8) :
    ofBytes (bs ++ bs') = ofBytes bs + 256 ^ bs.length * ofBytes bs' := by
  induction bs with
  | nil => simp [ofBytes]
  | cons b bs ih =>
    rw [List.cons_append, ofBytes, ofBytes, ih, List.length_cons, pow_succ', Nat.mul_assoc,
      Nat.mul_add, Nat.add_assoc]

abbrev Word := Fin (2 ^ 64)

def Word.bytes (w : Word) : List UInt8 := bytesOf 8 w

def Word.ofNat (n : ℕ) : Word := ⟨n % 2 ^ 64, Nat.mod_lt _ (by decide)⟩

def Word.ofBytes (bs : List UInt8) : Word := .ofNat (Lib.ofBytes bs)

theorem Word.val_ofNat {n : ℕ} (hn : n < 2 ^ 64) : (Word.ofNat n).val = n := Nat.mod_eq_of_lt hn

@[simp] theorem Word.length_bytes (w : Word) : w.bytes.length = 8 := length_bytesOf 8 w

@[simp] theorem Word.ofBytes_bytes (w : Word) : Word.ofBytes w.bytes = w := by
  refine Fin.ext ?_
  rw [Word.ofBytes, Word.bytes, ofBytes_bytesOf (n := 8) (by exact w.isLt), Word.val_ofNat w.isLt]

theorem Word.val_ofBytes {bs : List UInt8} (hlen : bs.length = 8) :
    (Word.ofBytes bs).val = Lib.ofBytes bs :=
  Word.val_ofNat ((ofBytes_lt bs).trans_eq (by rw [hlen]; rfl))

theorem Word.bytes_ofBytes {bs : List UInt8} (hlen : bs.length = 8) : (Word.ofBytes bs).bytes = bs := by
  rw [Word.bytes, Word.val_ofBytes hlen, ← hlen, bytesOf_ofBytes]

def bytesOfWords (ws : List Word) : List UInt8 := ws.flatMap Word.bytes

def words : ℕ → List UInt8 → List Word
  | 0, _ => []
  | n + 1, bs => Word.ofBytes (bs.take 8) :: words n (bs.drop 8)

@[simp] theorem length_words (n : ℕ) (bs : List UInt8) : (words n bs).length = n := by
  induction n generalizing bs with
  | zero => rfl
  | succ n ih => rw [words, List.length_cons, ih]

@[simp] theorem length_bytesOfWords (ws : List Word) : (bytesOfWords ws).length = 8 * ws.length := by
  induction ws with
  | nil => rfl
  | cons w ws ih =>
    rw [bytesOfWords, List.flatMap_cons, List.length_append, Word.length_bytes, List.length_cons]
    rw [bytesOfWords] at ih
    omega

theorem words_take (n : ℕ) (bs : List UInt8) : words n (bs.take (8 * n)) = words n bs := by
  induction n generalizing bs with
  | zero => rfl
  | succ n ih =>
    rw [words, words, List.take_take, List.drop_take, Nat.min_eq_left (by omega),
      show 8 * (n + 1) - 8 = 8 * n by omega, ih]

theorem words_bytesOfWords (ws : List Word) (rest : List UInt8) :
    words ws.length (bytesOfWords ws ++ rest) = ws := by
  induction ws with
  | nil => rfl
  | cons w ws ih =>
    have hsplit : bytesOfWords (w :: ws) ++ rest = w.bytes ++ (bytesOfWords ws ++ rest) := by
      simp [bytesOfWords]
    have htake : (w.bytes ++ (bytesOfWords ws ++ rest)).take 8 = w.bytes :=
      List.take_left' w.length_bytes
    have hdrop : (w.bytes ++ (bytesOfWords ws ++ rest)).drop 8 = bytesOfWords ws ++ rest :=
      List.drop_left' w.length_bytes
    rw [hsplit, List.length_cons, words, htake, hdrop, ih, Word.ofBytes_bytes]

theorem getElem?_words {n i : ℕ} (hi : i < n) (bs : List UInt8) :
    (words n bs)[i]? = some (Word.ofBytes ((bs.drop (8 * i)).take 8)) := by
  induction n generalizing i bs with
  | zero => omega
  | succ n ih =>
    cases i with
    | zero => rfl
    | succ i =>
      rw [words, List.getElem?_cons_succ, ih (by omega), List.drop_drop, Nat.mul_succ, Nat.add_comm]

end LearnedIndexFramework.Lib
