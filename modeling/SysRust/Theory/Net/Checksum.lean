import SysRust.Core.Net.Send
import SysRust.Lib.OnesComplement

/-!
# The Internet Checksum

`checksum` adds little-endian words in 32 bits, adds the carries twice and
returns the complement, which is then stored low byte first. RFC 1071 asks
for big-endian words and an end-around carry at every addition. Both come
down to the residue of a sum modulo `0xFFFF`: exchanging the bytes of every
word multiplies the sum by 256, and so does exchanging those of the result.

A receiver adds all words of the message, the checksum included. What it gets
is `0xFFFF`, the other zero, because the sum and its complement are added.

## Main definitions

* `words`: The big-endian words of a message.
* `rfc1071`: The checksum as the standard computes it.

## Theorems

* `sumWords_le`: The sum of a message fits in 32 bits.
* `checksumBytes_eq`: What the code computes.
* `words_sum`: The two sums of a message.
* `checksum_stored`: A message with its checksum.
* `checksum_rfc1071`: The checksum is the standard's and verifies itself.
-/

namespace SysRust.Net

open OnesComplement List

/-- The big-endian words of a message, an odd last byte padded with zero. -/
def words : List UInt8 → List Nat
  | [] => []
  | [b] => [256 * b.toNat]
  | a :: b :: rest => (256 * a.toNat + b.toNat) :: words rest

/-- The one's complement of the one's-complement sum of the words. -/
def rfc1071 (bs : List UInt8) : Nat := 0xFFFF - (words bs).foldl carryAdd 0

theorem sumWords_le (bs : List UInt8) : sumWords bs ≤ (bs.length + 1) / 2 * 0xFFFF := by
  fun_induction sumWords bs with
  | case1 => exact Nat.zero_le _
  | case2 b =>
    have hb := b.toNat_lt
    simp only [length_singleton]
    omega
  | case3 a b rest ih =>
    have ha := a.toNat_lt
    have hb := b.toNat_lt
    simp only [length_cons]
    omega

theorem words_le (bs : List UInt8) : ∀ w ∈ words bs, w ≤ 0xFFFF := by
  fun_induction words bs with
  | case1 => exact forall_mem_nil _
  | case2 b =>
    have hb := b.toNat_lt
    exact forall_mem_singleton.mpr (by omega)
  | case3 a b rest ih =>
    have ha := a.toNat_lt
    have hb := b.toNat_lt
    exact forall_mem_cons.mpr ⟨by omega, ih⟩

/-- The two sums of a message: one is 256 times the other, modulo `0xFFFF`,
    and they vanish together. -/
theorem words_sum (bs : List UInt8) :
    (∃ k, 256 * sumWords bs = (words bs).sum + 0xFFFF * k) ∧
      (sumWords bs = 0 ↔ (words bs).sum = 0) := by
  fun_induction words bs with
  | case1 => exact ⟨⟨0, rfl⟩, Iff.rfl⟩
  | case2 b =>
    simp only [sumWords, sum_singleton]
    exact ⟨⟨0, rfl⟩, by omega⟩
  | case3 a b rest ih =>
    rcases ih with ⟨⟨k, hk⟩, hzero⟩
    simp only [sumWords, sum_cons]
    exact ⟨⟨k + b.toNat, by omega⟩, by omega⟩

/-- Words before an even place are added on their own. -/
theorem sumWords_append {front : List UInt8} (back : List UInt8) (h : front.length % 2 = 0) :
    sumWords (front ++ back) = sumWords front + sumWords back := by
  fun_induction sumWords front with
  | case1 => exact (Nat.zero_add _).symm
  | case2 b => exact absurd h Nat.one_ne_zero
  | case3 a b rest ih =>
    simp only [length_cons] at h
    simp only [cons_append, sumWords, ih (by omega)]
    omega

/-- What the code computes: no sum leaves its 32 bits, and the two rounds of
    carries are enough. -/
theorem checksumBytes_eq {bs : List UInt8} (h : bs.length ≤ 65535) :
    checksumBytes bs = 0xFFFF - folded (sumWords bs) := by
  have hbound : sumWords bs ≤ 2 ^ 15 * 0xFFFF :=
    (sumWords_le bs).trans (Nat.mul_le_mul_right _ (by omega))
  have hmask : sumWords bs &&& 0xFFFF = sumWords bs % 2 ^ 16 := by
    rw [show 0xFFFF = 2 ^ 16 - 1 by decide, Nat.and_two_pow_sub_one_eq_mod]
  have hsum : u32 (sumWords bs) = sumWords bs := u32_of_lt (by omega)
  simp only [checksumBytes, hsum, hmask, Nat.shiftRight_eq_div_pow, u16]
  rw [folded_twice hbound]

/-- The standard's checksum is the complement of the exchanged sum. -/
theorem rfc1071_eq (bs : List UInt8) :
    rfc1071 bs = 0xFFFF - swapBytes (folded (sumWords bs)) := by
  have hfold := foldl_carryAdd 0 (words_le bs)
  rcases words_sum bs with ⟨⟨k, hk⟩, hzero⟩
  rcases folded_residue (words bs).sum with ⟨hfzero, hres⟩
  have hsame : folded (256 * sumWords bs) = folded (words bs).sum :=
    folded_eq (folded_le _) (by omega) (k := k + ((words bs).sum - 1) / 0xFFFF) (by omega)
  rw [Nat.zero_add] at hfold
  rw [rfc1071, swapBytes_folded, hsame, ← hfold]
  rfl

/-- The two checksums vanish together. -/
theorem checksumBytes_eq_zero_iff {bs : List UInt8} (h : bs.length ≤ 65535) :
    checksumBytes bs = 0 ↔ rfc1071 bs = 0 := by
  have hle := folded_le (sumWords bs)
  rw [checksumBytes_eq h, rfc1071_eq, swapBytes]
  omega

/-- The bytes of a word, in both orders. -/
theorem bytes_word {a b : Nat} (hb : b < 256) :
    be16Bytes (256 * a + b) = [UInt8.ofNat a, UInt8.ofNat b] ∧
      sumBytes (256 * a + b) = [UInt8.ofNat b, UInt8.ofNat a] := by
  have hhigh : (256 * a + b) / 2 ^ 8 = a := by omega
  have hlow : UInt8.ofNat (256 * a + b) = UInt8.ofNat b := by
    refine UInt8.toNat_inj.mp ?_
    simp only [UInt8.toNat_ofNat']
    omega
  rw [be16Bytes, sumBytes, hhigh, hlow]
  exact ⟨rfl, rfl⟩

/-- The bytes of a complement, low byte first, are those of the exchanged
    one, high byte first. -/
theorem sumBytes_complement {w : Nat} (h : w ≤ 0xFFFF) :
    sumBytes (0xFFFF - w) = be16Bytes (0xFFFF - swapBytes w) := by
  have hw : 0xFFFF - w = 256 * (255 - w / 256) + (255 - w % 256) := by omega
  have hswap : 0xFFFF - swapBytes w = 256 * (255 - w % 256) + (255 - w / 256) := by
    unfold swapBytes
    omega
  rw [hw, hswap, (bytes_word (by omega)).1, (bytes_word (by omega)).2]

theorem sumWords_sumBytes {w : Nat} (h : w ≤ 0xFFFF) (back : List UInt8) :
    sumWords (sumBytes w ++ back) = w + sumWords back := by
  have hlow : (UInt8.ofNat w).toNat = w % 2 ^ 8 := rfl
  have hhigh : (UInt8.ofNat (w / 2 ^ 8)).toNat = w / 2 ^ 8 % 2 ^ 8 := rfl
  simp only [sumBytes, cons_append, nil_append, sumWords, hlow, hhigh]
  omega

/-- Stored in a zeroed field at an even place, the checksum makes the
    checksum of the whole message zero: the sum with the field is the sum
    without it and the complement of that. -/
theorem checksum_stored {front back : List UInt8} (heven : front.length % 2 = 0)
    (h : (front ++ [0, 0] ++ back).length ≤ 65535) :
    checksumBytes (front ++ sumBytes (checksumBytes (front ++ [0, 0] ++ back)) ++ back) = 0 := by
  have heq := checksumBytes_eq h
  have hold : sumWords (front ++ [0, 0] ++ back) = sumWords front + sumWords back := by
    rw [append_assoc, sumWords_append _ heven]
    simp only [cons_append, nil_append, sumWords, UInt8.toNat_zero]
    omega
  have hlen : (front ++ sumBytes (checksumBytes (front ++ [0, 0] ++ back)) ++ back).length ≤
      65535 := by
    simp only [length_append, sumBytes, length_cons, length_nil] at h ⊢
    exact h
  rw [checksumBytes_eq hlen, append_assoc, sumWords_append _ heven,
    sumWords_sumBytes (by omega), heq, Nat.add_left_comm, ← hold, Nat.add_comm, folded_complement]

/-- The checksum of a message of any length that the code can be given: no
    sum overflows, what is stored is the checksum of the standard, and stored
    in a zeroed field at an even place it makes the checksum zero. -/
theorem checksum_rfc1071 {bs : List UInt8} (h : bs.length ≤ 65535) :
    (∀ k, sumWords (bs.take k) < 2 ^ 32) ∧ checksumBytes bs < 2 ^ 16 ∧
      sumBytes (checksumBytes bs) = be16Bytes (rfc1071 bs) ∧
      ∀ front back, bs = front ++ [0, 0] ++ back → front.length % 2 = 0 →
        checksumBytes (front ++ sumBytes (checksumBytes bs) ++ back) = 0 := by
  have heq := checksumBytes_eq h
  have hle := folded_le (sumWords bs)
  refine ⟨fun k => ?_, by omega, ?_, fun front back hbs heven => ?_⟩
  · have hsum := sumWords_le (bs.take k)
    rw [length_take] at hsum
    omega
  · rw [heq, rfc1071_eq, sumBytes_complement hle]
  · rw [hbs] at h ⊢
    exact checksum_stored heven h

/-- An echo request of five bytes with its checksum. -/
theorem checksum_rfc1071_echo :
    sumBytes (checksumBytes [8, 0, 0, 0, 1]) = [0xF6, 0xFF] ∧
      sumBytes (checksumBytes [8, 0, 0, 0, 1]) = be16Bytes (rfc1071 [8, 0, 0, 0, 1]) ∧
      checksumBytes ([8, 0] ++ sumBytes (checksumBytes [8, 0, 0, 0, 1]) ++ [1]) = 0 := by
  rcases @checksum_rfc1071 [8, 0, 0, 0, 1] (by decide) with ⟨_, _, hrfc, hself⟩
  exact ⟨by decide, hrfc, hself [8, 0] [1] rfl rfl⟩

end SysRust.Net
