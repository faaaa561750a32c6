import Mathlib.Algebra.Group.Nat.Defs
import Mathlib.Data.Option.Basic
import Mathlib.Data.List.Basic

/-!
# Reading a Byte String

Reads of a byte string that fail outside of it. A parser written over these
reads returns `none` exactly when it looks at a byte that is not there, so
that it never does is the statement that it always returns `some`.

The rules below are used one per read. A read is safe if its last index is
inside the string, and a parser is safe if its first read is and what
follows is safe for every value read.

## Main definitions

* `byteAt`, `le16`, `le32`, `be32`: A byte, a little-endian word, and four
  bytes most significant first.
* `bytesAt`: A run of bytes.
* `Returns`: A parser returns a result with a property.

## Theorems

* `isSome_bind`, `isSome_ite`: Safety of a sequence and of a branch.
* `Returns.bind`, `Returns.ite`: The same with a property of the result.
* `byteAt_isSome`, `le16_isSome`, `le32_isSome`, `be32_isSome`,
  `bytesAt_isSome`: Safety of a read.
-/

namespace SysRust

/-- The byte at an index. -/
def byteAt (f : List UInt8) (i : Nat) : Option Nat := f[i]?.map UInt8.toNat

/-- The little-endian 16-bit value at an index. -/
def le16 (f : List UInt8) (i : Nat) : Option Nat :=
  (byteAt f i).bind (fun a => (byteAt f (i + 1)).map (fun b => a + 256 * b))

/-- The little-endian 32-bit value at an index. -/
def le32 (f : List UInt8) (i : Nat) : Option Nat :=
  (le16 f i).bind (fun a => (le16 f (i + 2)).map (fun b => a + 65536 * b))

/-- The four bytes at an index, most significant first. -/
def be32 (f : List UInt8) (i : Nat) : Option Nat :=
  (byteAt f i).bind (fun a => (byteAt f (i + 1)).bind (fun b =>
    (byteAt f (i + 2)).bind (fun c => (byteAt f (i + 3)).map (fun d =>
      a * 2 ^ 24 + b * 2 ^ 16 + c * 2 ^ 8 + d))))

/-- The `n` bytes from an index on. -/
def bytesAt (f : List UInt8) : Nat → Nat → Option (List UInt8)
  | _, 0 => some []
  | i, n + 1 => f[i]?.bind (fun b => (bytesAt f (i + 1) n).map (fun bs => b :: bs))

variable {α β : Type}

theorem isSome_bind {x : Option α} {g : α → Option β} (hx : x.isSome = true)
    (hg : ∀ a, x = some a → (g a).isSome = true) : (x.bind g).isSome = true := by
  rcases Option.isSome_iff_exists.mp hx with ⟨a, ha⟩
  rw [ha, Option.bind_some]
  exact hg a ha

theorem isSome_ite {p : Prop} [Decidable p] {x y : Option α} (hx : p → x.isSome = true)
    (hy : ¬ p → y.isSome = true) : (if p then x else y).isSome = true := by
  by_cases h : p
  · rw [if_pos h]; exact hx h
  · rw [if_neg h]; exact hy h

/-- The parser returns, with a result that has the property. -/
def Returns (P : α → Prop) (x : Option α) : Prop := ∃ a, x = some a ∧ P a

namespace Returns

theorem bind {P : β → Prop} {x : Option α} {g : α → Option β} (hx : x.isSome = true)
    (hg : ∀ a, x = some a → Returns P (g a)) : Returns P (x.bind g) := by
  rcases Option.isSome_iff_exists.mp hx with ⟨a, ha⟩
  rw [ha, Option.bind_some]
  exact hg a ha

theorem ite {P : α → Prop} {p : Prop} [Decidable p] {x y : Option α} (hx : p → Returns P x)
    (hy : ¬ p → Returns P y) : Returns P (if p then x else y) := by
  by_cases h : p
  · rw [if_pos h]; exact hx h
  · rw [if_neg h]; exact hy h

theorem mono {P Q : α → Prop} {x : Option α} (h : Returns P x) (hpq : ∀ a, P a → Q a) :
    Returns Q x := by
  rcases h with ⟨a, ha, hp⟩
  exact ⟨a, ha, hpq a hp⟩

theorem isSome {P : α → Prop} {x : Option α} (h : Returns P x) : x.isSome = true := by
  rcases h with ⟨a, rfl, _⟩
  rfl

theorem of_eq_some {P : α → Prop} {x : Option α} {a : α} (h : Returns P x) (hx : x = some a) :
    P a := by
  rcases h with ⟨b, rfl, hb⟩
  cases hx
  exact hb

end Returns

theorem isSome_map {x : Option α} {g : α → β} (hx : x.isSome = true) :
    (x.map g).isSome = true := by
  rw [Option.isSome_map]
  exact hx

variable {f : List UInt8} {i n : Nat}

theorem byteAt_isSome (h : i < f.length) : (byteAt f i).isSome = true := by
  unfold byteAt
  rw [List.getElem?_eq_getElem h]
  rfl

theorem le16_isSome (h : i + 1 < f.length) : (le16 f i).isSome = true :=
  isSome_bind (byteAt_isSome (by omega)) (fun _ _ => isSome_map (byteAt_isSome h))

theorem le32_isSome (h : i + 3 < f.length) : (le32 f i).isSome = true :=
  isSome_bind (le16_isSome (by omega)) (fun _ _ => isSome_map (le16_isSome (by omega)))

theorem be32_isSome (h : i + 3 < f.length) : (be32 f i).isSome = true := by
  refine isSome_bind (byteAt_isSome (by omega)) (fun _ _ => ?_)
  refine isSome_bind (byteAt_isSome (by omega)) (fun _ _ => ?_)
  exact isSome_bind (byteAt_isSome (by omega)) (fun _ _ => isSome_map (byteAt_isSome h))

theorem lt_of_byteAt {b : Nat} (h : byteAt f i = some b) : i < f.length := by
  obtain ⟨_, hget, _⟩ := Option.map_eq_some_iff.mp h
  exact (List.getElem?_eq_some_iff.mp hget).1

theorem byteAt_some (h : i < f.length) : ∃ v, byteAt f i = some v :=
  Option.isSome_iff_exists.mp (byteAt_isSome h)

theorem le16_some (h : i + 1 < f.length) : ∃ v, le16 f i = some v :=
  Option.isSome_iff_exists.mp (le16_isSome h)

theorem le32_some (h : i + 3 < f.length) : ∃ v, le32 f i = some v :=
  Option.isSome_iff_exists.mp (le32_isSome h)

theorem bytesAt_eq (h : i + n ≤ f.length) : bytesAt f i n = some ((f.drop i).take n) := by
  induction n generalizing i with
  | zero => rfl
  | succ n ih =>
    have hi : i < f.length := by omega
    rw [bytesAt, List.getElem?_eq_getElem hi, Option.bind_some, ih (by omega), Option.map_some,
      List.drop_eq_getElem_cons hi, List.take_succ_cons]

theorem bytesAt_isSome (h : i + n ≤ f.length) : (bytesAt f i n).isSome = true := by
  rw [bytesAt_eq h]
  rfl

theorem length_bytesAt {bs : List UInt8} (h : bytesAt f i n = some bs) : bs.length = n := by
  induction n generalizing i bs with
  | zero =>
    rw [← Option.some.inj h]
    rfl
  | succ n ih =>
    rcases Option.bind_eq_some_iff.mp h with ⟨b, -, h⟩
    rcases Option.map_eq_some_iff.mp h with ⟨cs, hcs, rfl⟩
    rw [List.length_cons, ih hcs]

end SysRust
