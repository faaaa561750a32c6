import SysRust.Core.Shell

/-!
# Which Strings Are Addresses

`parse_ip` does not look behind the fourth number, and has reduced a number
modulo `2 ^ 32` when it compares it with 255. `numbers` reads the same text
with the numbers as they stand, and `address` is the address it denotes, 0
unless it is exactly four numbers of at most 255.

## Main definitions

* `numbers`, `address`: The numbers of a text, and its address.

## Theorems

* `parseIpLoop_eq`: What `parse_ip` returns.
* `parseIp_iff`: When that is the address.
-/

namespace SysRust.Shell

open Rc

/-- The value of a run of digits. -/
def decimal (ds : List UInt8) : Nat := ds.foldl (fun n c => n * 10 + (c.toNat - 0x30)) 0

/-- The `n + 1` decimal numbers a text begins with, with single dots between
    them, and what follows. -/
def numbers (n : Nat) (s : List UInt8) : Option (List Nat × List UInt8) :=
  if s.takeWhile isdigit = [] then none
  else
    match n, s.dropWhile isdigit with
    | 0, rest => some ([decimal (s.takeWhile isdigit)], rest)
    | n + 1, 0x2E :: p =>
      (numbers n p).map (fun r => (decimal (s.takeWhile isdigit) :: r.1, r.2))
    | _, _ => none

/-- The word with these bytes behind `ip`, and 0 if one is no byte. -/
def word (ip : BitVec 32) (vs : List (BitVec 32)) : BitVec 32 :=
  if ∀ v ∈ vs, v ≤ 255 then vs.foldl (fun ip v => (ip <<< 8) ||| v) ip else 0

/-- The address of four numbers of at most 255 and nothing else. -/
def address (s : List UInt8) : BitVec 32 :=
  ((numbers 3 s).map (fun r => if r.2 = [] ∧ ∀ v ∈ r.1, v ≤ 255
    then word 0 (r.1.map (BitVec.ofNat 32)) else 0)).getD 0

theorem word_nil (ip : BitVec 32) : word ip [] = ip := if_pos (List.forall_mem_nil _)

theorem word_cons (ip v : BitVec 32) (vs : List (BitVec 32)) :
    word ip (v :: vs) = if v > 255 then 0 else word ((ip <<< 8) ||| v) vs := by
  simp only [word, List.forall_mem_cons, List.foldl_cons, ite_and, gt_iff_lt, ← BitVec.not_le,
    ite_not]

/-- The loop reads the numbers of the text modulo `2 ^ 32`, and ignores what
    follows them. -/
theorem parseIpLoop_eq (ip : BitVec 32) (n : Nat) (s : List UInt8) :
    parseIpLoop ip n s =
      ((numbers n s).map (fun r => word ip (r.1.map (BitVec.ofNat 32)))).getD 0 := by
  have hoctet (ds : List UInt8) :
      ds.foldl (fun octet c => octet * 10 + BitVec.ofNat 32 (c.toNat - 0x30)) 0 =
        BitVec.ofNat 32 (decimal ds) := by
    refine List.foldl_hom (BitVec.ofNat 32) (fun n c => ?_)
    rw [BitVec.ofNat_add, BitVec.ofNat_mul]
    rfl
  fun_induction numbers n s generalizing ip with
  | case1 n s h =>
    rw [parseIpLoop.eq_def]
    exact if_pos h
  | case2 s h =>
    rw [parseIpLoop.eq_def]
    simp only [if_neg h, hoctet, Option.map_some, Option.getD_some, List.map_cons, List.map_nil,
      word_cons, word_nil]
  | case3 s h n p hp ih =>
    rw [parseIpLoop.eq_def]
    simp only [if_neg h, hoctet, hp, ih]
    cases numbers n p with
    | none => exact ite_self 0
    | some r => simp only [Option.map_some, Option.getD_some, List.map_cons, word_cons]
  | case4 n s h hzero hdot =>
    rw [parseIpLoop.eq_def]
    simp only [if_neg h]
    exact ite_self 0

theorem length_numbers {n : Nat} {s rest : List UInt8} {vs : List Nat}
    (h : numbers n s = some (vs, rest)) : vs.length = n + 1 := by
  fun_induction numbers n s generalizing vs rest with
  | case1 | case4 => exact absurd h (by simp)
  | case2 s hds =>
    cases h
    rfl
  | case3 s hds n p hp ih =>
    rcases Option.map_eq_some_iff.mp h with ⟨r, hr, heq⟩
    cases heq
    exact congrArg (· + 1) (ih hr)

/-- As long as no byte is shifted out, a word is 0 only if all of its bytes are. -/
theorem word_eq_zero_iff {vs : List (BitVec 32)} (ip : BitVec 32)
    (hfit : (ip.toNat + 1) * 256 ^ vs.length ≤ 2 ^ 32) (hle : ∀ v ∈ vs, v ≤ 255) :
    word ip vs = 0 ↔ ip = 0 ∧ ∀ v ∈ vs, v = 0 := by
  induction vs generalizing ip with
  | nil => rw [word_nil, and_iff_left (List.forall_mem_nil _)]
  | cons v vs ih =>
    rw [List.forall_mem_cons] at hle
    have hv : v.toNat ≤ 255 := hle.1
    rw [List.length_cons, Nat.pow_succ', ← Nat.mul_assoc] at hfit
    have hsmall : (ip.toNat + 1) * 256 ≤ 2 ^ 32 :=
      Nat.le_trans (Nat.le_mul_of_pos_right _ (Nat.pow_pos (by decide))) hfit
    have hnext : ((ip <<< 8) ||| v).toNat = ip.toNat * 2 ^ 8 + v.toNat := by
      rw [BitVec.toNat_or, BitVec.toNat_shiftLeft, Nat.mod_eq_of_lt (by
        rw [Nat.shiftLeft_eq]
        omega), ← Nat.shiftLeft_add_eq_or_of_lt (by omega), Nat.shiftLeft_eq]
    have hzero : (ip <<< 8) ||| v = 0 ↔ ip = 0 ∧ v = 0 := by
      simp only [← BitVec.toNat_inj, hnext]
      simp only [BitVec.ofNat_eq_ofNat, BitVec.toNat_ofNat, Nat.zero_mod]
      omega
    rw [word_cons, if_neg (BitVec.not_lt.mpr hle.1), ih _ ?_ hle.2, hzero, List.forall_mem_cons,
      and_assoc]
    calc ((ip <<< 8 ||| v).toNat + 1) * 256 ^ vs.length
        ≤ ((ip.toNat + 1) * 256) * 256 ^ vs.length := by
          refine Nat.mul_le_mul_right _ ?_
          omega
      _ ≤ 2 ^ 32 := hfit

/-- The word of four numbers modulo `2 ^ 32`. -/
theorem word_four_ne_zero {vs : List Nat} (hlen : vs.length = 4) :
    word 0 (vs.map (BitVec.ofNat 32)) ≠ 0 ↔
      (∀ v ∈ vs, v % 2 ^ 32 ≤ 255) ∧ ∃ v ∈ vs, v % 2 ^ 32 ≠ 0 := by
  have hle : (∀ v ∈ vs.map (BitVec.ofNat 32), v ≤ 255) ↔ ∀ v ∈ vs, v % 2 ^ 32 ≤ 255 :=
    List.forall_mem_map
  by_cases h : ∀ v ∈ vs, v % 2 ^ 32 ≤ 255
  · rw [Ne, word_eq_zero_iff 0 (by simp [hlen]) (hle.mpr h), List.forall_mem_map,
      and_iff_right rfl, and_iff_right h]
    simp only [← BitVec.toNat_inj, not_forall, exists_prop]
    rfl
  · exact iff_of_false (not_not_intro (if_neg (mt hle.mp h))) (fun hr => h hr.1)

/-- `parse_ip` returns the address of a text exactly if four numbers that are
    bytes modulo `2 ^ 32`, not all of them 0, are at most 255 themselves and the
    text does not go on behind them. -/
theorem parseIp_iff (s : List UInt8) :
    parseIp s = address s ↔ ∀ vs rest, numbers 3 s = some (vs, rest) →
      (∀ v ∈ vs, v % 2 ^ 32 ≤ 255) → (∃ v ∈ vs, v % 2 ^ 32 ≠ 0) →
        rest = [] ∧ ∀ v ∈ vs, v ≤ 255 := by
  rw [parseIp, parseIpLoop_eq, address]
  cases hs : numbers 3 s with
  | none => exact iff_of_true rfl (fun _ _ h => nomatch h)
  | some r =>
    have hword := word_four_ne_zero (length_numbers hs)
    simp only [Option.map_some, Option.getD_some]
    split_ifs with hquad
    · refine iff_of_true rfl (fun vs rest h _ _ => ?_)
      cases h
      exact hquad
    · refine ⟨fun hzero vs rest h hle hne => ?_, fun h => ?_⟩
      · cases h
        exact absurd hzero (hword.mpr ⟨hle, hne⟩)
      · by_contra hne
        rcases hword.mp hne with ⟨hle, hsome⟩
        exact hquad (h r.1 r.2 rfl hle hsome)

/-- An address with something behind it is taken for the address, and so is
    one with a number that wraps around. -/
theorem parseIp_accepts :
    parseIp (ascii "1.2.3.4x") = 0x01020304 ∧ address (ascii "1.2.3.4x") = 0 ∧
      parseIp (ascii "4294967297.2.3.4") = 0x01020304 ∧
      address (ascii "4294967297.2.3.4") = 0 := by
  decide +kernel

end SysRust.Shell
