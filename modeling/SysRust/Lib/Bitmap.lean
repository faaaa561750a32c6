import Mathlib.Data.Finset.Card
import Mathlib.Data.Nat.Bits
import Mathlib.Logic.Function.Basic

/-!
# Bitmaps

A set of numbers kept as a table of machine words: number `i` is bit
`i % w` of word `i / w`. The operations are the shifts and masks of code
that keeps such a table; the lemmas turn them into statements about
membership, and nothing else is needed of the words.

`firstClear` is the two-level scan of an allocator: it skips the words that
are full and looks for a clear bit in the first that is not.

## Main definitions

* `Bitmap`: The table.
* `Bitmap.test`, `Bitmap.set`, `Bitmap.clear`: Membership, insertion and
  removal.
* `Bitmap.firstClear`: The lowest number that is not in the set.
* `Bitmap.absent`: The numbers that are not in the set.

## Theorems

* `test_set`, `test_clear`: Membership after an insertion and a removal.
* `firstClear_some`, `firstClear_none`: What the scan finds.
* `absent_set`, `absent_clear`: What an insertion and a removal leave out.
* `count_foldl`: Counting members one by one.
-/

namespace SysRust

open Function

/-- A table of `w`-bit words. -/
abbrev Bitmap (w : Nat) := Nat → BitVec w

namespace Bitmap

variable {w : Nat}

/-- Whether `i` is in the set. -/
def test (b : Bitmap w) (i : Nat) : Bool := (b (i / w) &&& (1#w <<< (i % w))) != 0#w

/-- Put `i` into the set. -/
def set (b : Bitmap w) (i : Nat) : Bitmap w :=
  Function.update b (i / w) (b (i / w) ||| (1#w <<< (i % w)))

/-- Take `i` out of the set. -/
def clear (b : Bitmap w) (i : Nat) : Bitmap w :=
  Function.update b (i / w) (b (i / w) &&& ~~~(1#w <<< (i % w)))

/-- The first clear bit of a word among the `n` from `bit` on. -/
def scanWord (x : BitVec w) : Nat → Nat → Option Nat
  | _, 0 => none
  | bit, n + 1 => if x &&& (1#w <<< bit) = 0#w then some bit else scanWord x (bit + 1) n

/-- The first clear bit among the `n` words from word `i` on, with its word.
    A full word is skipped without looking at its bits. -/
def firstClear (b : Bitmap w) : Nat → Nat → Option (Nat × Nat)
  | _, 0 => none
  | i, n + 1 =>
    if b i ≠ BitVec.allOnes w then
      match scanWord (b i) 0 w with
      | some bit => some (i, bit)
      | none => firstClear b (i + 1) n
    else firstClear b (i + 1) n

/-! ### Bits of a word -/

variable {k i j bit n : Nat} {b : Bitmap w}

theorem and_shift_eq_zero_iff (x : BitVec w) (hk : k < w) :
    x &&& (1#w <<< k) = 0#w ↔ x.getLsbD k = false := by
  have htwo : 1#w <<< k = BitVec.twoPow w k := (BitVec.twoPow_eq w k).symm
  rw [htwo, BitVec.and_twoPow]
  cases hx : x.getLsbD k with
  | false => simp only [Bool.false_eq_true, if_false]
  | true =>
    -- The mask has its own bit set, so it is not zero.
    have hbit : (BitVec.twoPow w k).getLsbD k = true := by
      rw [BitVec.getLsbD_twoPow]
      simp only [hk, decide_true, Bool.and_self]
    simp only [if_true, Bool.true_eq_false, iff_false]
    intro h0
    rw [h0, BitVec.getLsbD_zero] at hbit
    exact absurd hbit Bool.false_ne_true

theorem test_iff (b : Bitmap w) (i : Nat) (hw : 0 < w) :
    b.test i = true ↔ (b (i / w)).getLsbD (i % w) = true := by
  have h := and_shift_eq_zero_iff (b (i / w)) (Nat.mod_lt i hw)
  unfold test
  rw [bne_iff_ne, ne_eq, h, Bool.not_eq_false]

/-- Two numbers share their word and their bit only if they are equal. -/
theorem index_inj (hd : i / w = j / w) (hm : i % w = j % w) : i = j := by
  rw [← Nat.div_add_mod i w, ← Nat.div_add_mod j w, hd, hm]

theorem getLsbD_shift (k : Nat) (hj : j < w) : (1#w <<< k).getLsbD j = decide (j = k) := by
  rw [← BitVec.twoPow_eq, BitVec.getLsbD_twoPow]
  by_cases hk : j = k
  · rw [← hk]
    simp only [hj, decide_true, Bool.and_self]
  · simp only [hk, Ne.symm hk, decide_false, Bool.and_false]

/-! ### Insertion and removal -/

theorem test_set (b : Bitmap w) (i j : Nat) (hw : 0 < w) :
    (b.set i).test j = true ↔ b.test j = true ∨ j = i := by
  have hj := Nat.mod_lt j hw
  rw [test_iff _ _ hw, test_iff _ _ hw]
  unfold set
  by_cases hd : j / w = i / w
  · rw [hd, update_self, BitVec.getLsbD_or, getLsbD_shift _ hj, Bool.or_eq_true,
      decide_eq_true_eq]
    constructor
    · rintro (h | h)
      · exact Or.inl h
      · exact Or.inr (index_inj hd h)
    · rintro (h | h)
      · exact Or.inl h
      · exact Or.inr (by rw [h])
  · rw [update_of_ne hd]
    constructor
    · exact Or.inl
    · rintro (h | h)
      · exact h
      · exact absurd (by rw [h]) hd

theorem test_clear (b : Bitmap w) (i j : Nat) (hw : 0 < w) :
    (b.clear i).test j = true ↔ b.test j = true ∧ j ≠ i := by
  have hj := Nat.mod_lt j hw
  rw [test_iff _ _ hw, test_iff _ _ hw]
  unfold clear
  by_cases hd : j / w = i / w
  · rw [hd, update_self, BitVec.getLsbD_and, BitVec.getLsbD_not, getLsbD_shift _ hj]
    simp only [hj, decide_true, Bool.true_and, Bool.and_eq_true, Bool.not_eq_true',
      decide_eq_false_iff_not]
    refine and_congr_right (fun _ => not_congr ⟨fun h => index_inj hd h, fun h => by rw [h]⟩)
  · rw [update_of_ne hd]
    refine ⟨fun h => ⟨h, fun h' => hd (by rw [h'])⟩, fun h => h.1⟩

/-! ### The scan -/

variable {x : BitVec w}

theorem scanWord_some (h : scanWord x bit n = some k) (hn : bit + n ≤ w) :
    k < w ∧ x.getLsbD k = false := by
  fun_induction scanWord x bit n with
  | case1 => cases h
  | case2 bit n hb =>
    rw [← Option.some.inj h]
    exact ⟨by omega, (and_shift_eq_zero_iff x (by omega)).mp hb⟩
  | case3 bit n _ ih => exact ih h (by omega)

theorem scanWord_none (h : scanWord x bit n = none) (hn : bit + n ≤ w) :
    ∀ k, bit ≤ k → k < bit + n → x.getLsbD k = true := by
  intro k hlo hhi
  fun_induction scanWord x bit n with
  | case1 => omega
  | case2 => cases h
  | case3 bit n hb ih =>
    by_cases hk : k = bit
    · rw [hk, ← Bool.not_eq_false]
      exact fun h0 => hb ((and_shift_eq_zero_iff x (by omega)).mpr h0)
    · exact ih h (by omega) (by omega) (by omega)

/-- What the scan finds is in range and not in the set. -/
theorem firstClear_some (hw : 0 < w) (h : b.firstClear i n = some (j, bit)) :
    bit < w ∧ j < i + n ∧ b.test (j * w + bit) = false := by
  fun_induction firstClear b i n with
  | case1 => cases h
  | case2 i n _ k hs =>
    simp only [Option.some.injEq, Prod.mk.injEq] at h
    rcases h with ⟨rfl, rfl⟩
    rcases scanWord_some hs (by omega) with ⟨hk, hclear⟩
    have hdiv : (i * w + k) / w = i := by
      rw [Nat.mul_comm, Nat.mul_add_div hw, Nat.div_eq_of_lt hk, Nat.add_zero]
    have hmod : (i * w + k) % w = k := by
      rw [Nat.mul_comm, Nat.mul_add_mod, Nat.mod_eq_of_lt hk]
    refine ⟨hk, by omega, ?_⟩
    rw [← Bool.not_eq_true, test_iff _ _ hw, hdiv, hmod, hclear]
    exact Bool.false_ne_true
  | case3 _ _ _ _ ih | case4 _ _ _ ih =>
    rcases ih h with ⟨h1, h2, h3⟩
    exact ⟨h1, by omega, h3⟩

/-- A scan that finds nothing has seen only members. -/
theorem firstClear_none (hw : 0 < w) (h : b.firstClear i n = none) :
    ∀ j, i ≤ j / w → j / w < i + n → b.test j = true := by
  intro j hlo hhi
  have hj := Nat.mod_lt j hw
  fun_induction firstClear b i n with
  | case1 => omega
  | case2 => cases h
  | case3 i n _ hs ih =>
    by_cases hji : j / w = i
    · rw [test_iff _ _ hw, hji]
      exact scanWord_none hs (by omega) (j % w) (Nat.zero_le _) (by omega)
    · exact ih h (by omega) (by omega)
  | case4 i n hfull ih =>
    by_cases hji : j / w = i
    · rw [test_iff _ _ hw, hji, not_ne_iff.mp hfull, BitVec.getLsbD_allOnes]
      exact decide_eq_true hj
    · exact ih h (by omega) (by omega)

/-! ### Counting -/

/-- The numbers below `n` that are not in the set. -/
def absent (b : Bitmap w) (n : Nat) : Finset Nat :=
  (Finset.range n).filter (fun i => b.test i = false)

theorem mem_absent : i ∈ b.absent n ↔ i < n ∧ b.test i = false := by
  rw [absent, Finset.mem_filter, Finset.mem_range]

theorem card_absent_le (b : Bitmap w) (n : Nat) : (b.absent n).card ≤ n := by
  have h := Finset.card_filter_le (Finset.range n) (fun i => b.test i = false)
  rwa [Finset.card_range] at h

theorem absent_set (b : Bitmap w) (i n : Nat) (hw : 0 < w) :
    (b.set i).absent n = (b.absent n).erase i := by
  ext j
  have h := test_set b i j hw
  rw [mem_absent, Finset.mem_erase, mem_absent, ← Bool.not_eq_true, ← Bool.not_eq_true, h, not_or]
  exact ⟨fun ⟨h1, h2, h3⟩ => ⟨h3, h1, h2⟩, fun ⟨h1, h2, h3⟩ => ⟨h2, h3, h1⟩⟩

theorem absent_clear (b : Bitmap w) (hi : i < n) (hw : 0 < w) :
    (b.clear i).absent n = insert i (b.absent n) := by
  ext j
  have h := test_clear b i j hw
  rw [mem_absent, Finset.mem_insert, mem_absent, ← Bool.not_eq_true, ← Bool.not_eq_true, h]
  constructor
  · rintro ⟨hj, hnot⟩
    by_cases hji : j = i
    · exact Or.inl hji
    · exact Or.inr ⟨hj, fun ht => hnot ⟨ht, hji⟩⟩
  · rintro (rfl | ⟨hj, ht⟩)
    · exact ⟨hi, fun h => h.2 rfl⟩
    · exact ⟨hj, fun h => ht h.1⟩

/-- Counting the members one by one, in words of `v` bits. -/
theorem count_foldl (b : Bitmap w) {v : Nat} (n : Nat) :
    (List.range n).foldl (fun c i => if b.test i = true then c + 1 else c) (0 : BitVec v) =
      BitVec.ofNat v (n - (b.absent n).card) := by
  induction n with
  | zero => rfl
  | succ k ih =>
    have hle := card_absent_le b k
    rw [List.range_succ, List.foldl_append, ih, List.foldl_cons, List.foldl_nil]
    by_cases h : b.test k = true
    · have hsame : b.absent (k + 1) = b.absent k := by
        have hin : ¬ b.test k = false := by rw [h]; exact Bool.noConfusion
        rw [absent, Finset.range_add_one, Finset.filter_insert, if_neg hin]
        rfl
      rw [if_pos h, hsame, Nat.succ_sub hle, Nat.succ_eq_add_one, BitVec.ofNat_add]
      rfl
    · have hmore : b.absent (k + 1) = insert k (b.absent k) := by
        rw [absent, Finset.range_add_one, Finset.filter_insert, if_pos (Bool.not_eq_true _ ▸ h)]
        rfl
      have hnew : k ∉ b.absent k := fun hk => absurd (mem_absent.mp hk).1 (Nat.lt_irrefl k)
      rw [if_neg h, hmore, Finset.card_insert_of_notMem hnew]
      congr 1
      omega

end Bitmap

end SysRust
