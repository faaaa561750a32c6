import Mathlib.Algebra.GroupWithZero.Nat
import Mathlib.Algebra.BigOperators.Group.List.Basic

/-!
# One's-Complement Sums

Sixteen-bit words added with an end-around carry. Such a sum is the plain sum
modulo `0xFFFF`, but with two zeros: `0` comes out only if nothing but zeros
was added, and `0xFFFF` stands for every other multiple. `folded` is this
value for any number, so that the order of the words, the place of the
carries and the order of the bytes in a word become facts about residues.

## Main definitions

* `carryAdd`: Addition with an end-around carry.
* `folded`: The word that a sum comes down to.
* `swapBytes`: The word with its bytes exchanged.

## Theorems

* `foldl_carryAdd`: Adding words one by one.
* `folded_twice`: Two rounds of adding the carries are enough.
* `swapBytes_folded`: Exchanging bytes is multiplication by 256.
* `folded_complement`: A sum and its complement.
-/

namespace SysRust.OnesComplement

/-- Addition of words: a carry out of the top is added at the bottom. -/
def carryAdd (a b : Nat) : Nat := if a + b < 2 ^ 16 then a + b else a + b - 0xFFFF

/-- The word that a sum comes down to. -/
def folded (n : Nat) : Nat := if n = 0 then 0 else (n - 1) % 0xFFFF + 1

/-- The word with its bytes exchanged. -/
def swapBytes (w : Nat) : Nat := w % 256 * 256 + w / 256

theorem folded_le (n : Nat) : folded n ≤ 0xFFFF := by
  unfold folded
  split_ifs <;> omega

/-- The one value with the right residue that is zero only for zero. -/
theorem folded_eq {n r k : Nat} (hr : r ≤ 0xFFFF) (hzero : n = 0 ↔ r = 0)
    (h : n = r + 0xFFFF * k) : folded n = r := by
  unfold folded
  split_ifs <;> omega

theorem folded_residue (n : Nat) :
    (n = 0 ↔ folded n = 0) ∧ n = folded n + 0xFFFF * ((n - 1) / 0xFFFF) := by
  unfold folded
  by_cases h0 : n = 0
  · rw [if_pos h0, h0]
    exact ⟨Iff.rfl, rfl⟩
  · rw [if_neg h0]
    omega

theorem carryAdd_folded (n : Nat) {w : Nat} (hw : w ≤ 0xFFFF) :
    carryAdd (folded n) w = folded (n + w) := by
  rcases folded_residue n with ⟨hzero, hres⟩
  symm
  unfold carryAdd
  by_cases hc : folded n + w < 2 ^ 16
  · rw [if_pos hc]
    exact folded_eq (by omega) (by omega) (k := (n - 1) / 0xFFFF) (by omega)
  · rw [if_neg hc]
    exact folded_eq (by omega) (by omega) (k := (n - 1) / 0xFFFF + 1) (by omega)

/-- Adding words one by one. -/
theorem foldl_carryAdd (n : Nat) {ws : List Nat} (h : ∀ w ∈ ws, w ≤ 0xFFFF) :
    ws.foldl carryAdd (folded n) = folded (n + ws.sum) := by
  induction ws generalizing n with
  | nil => rfl
  | cons w ws ih =>
    rw [List.foldl_cons, carryAdd_folded n (h w List.mem_cons_self),
      ih (n + w) (fun v hv => h v (List.mem_cons_of_mem w hv)), List.sum_cons, Nat.add_assoc]

/-- Two rounds of adding the carries are enough for up to `2 ^ 15` words: the
    first leaves less than twice `2 ^ 16`. -/
theorem folded_twice {n : Nat} (h : n ≤ 2 ^ 15 * 0xFFFF) :
    (n / 2 ^ 16 + n % 2 ^ 16 + (n / 2 ^ 16 + n % 2 ^ 16) / 2 ^ 16) % 2 ^ 16 = folded n := by
  have hsplit : n = n / 2 ^ 16 + n % 2 ^ 16 + 0xFFFF * (n / 2 ^ 16) := by omega
  have hzero : n = 0 ↔ n / 2 ^ 16 + n % 2 ^ 16 = 0 := by omega
  have hle : n / 2 ^ 16 + n % 2 ^ 16 < 2 ^ 17 - 1 := by omega
  generalize n / 2 ^ 16 + n % 2 ^ 16 = t at hsplit hzero hle ⊢
  symm
  by_cases hc : t < 2 ^ 16
  · exact folded_eq (by omega) (by omega) (k := n / 2 ^ 16) (by omega)
  · exact folded_eq (by omega) (by omega) (k := n / 2 ^ 16 + 1) (by omega)

/-- Exchanging bytes is multiplication by 256, as `2 ^ 16` has residue 1. -/
theorem swapBytes_folded (n : Nat) : swapBytes (folded n) = folded (256 * n) := by
  rcases folded_residue n with ⟨hzero, hres⟩
  have hsplit : 256 * folded n = swapBytes (folded n) + 0xFFFF * (folded n / 256) := by
    unfold swapBytes
    omega
  symm
  refine folded_eq ?_ ?_ (k := folded n / 256 + 256 * ((n - 1) / 0xFFFF)) (by omega)
  · unfold swapBytes
    omega
  · unfold swapBytes at *
    omega

/-- A sum and its complement make the other zero. -/
theorem folded_complement (n : Nat) : folded (n + (0xFFFF - folded n)) = 0xFFFF := by
  rcases folded_residue n with ⟨_, hres⟩
  exact folded_eq (by omega) (by omega) (k := (n - 1) / 0xFFFF) (by omega)

end SysRust.OnesComplement
