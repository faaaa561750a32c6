import Mathlib.Data.Nat.Bits
import Mathlib.Tactic.Ring

/-!
# Byte Memory

A flat byte-addressed memory with little-endian loads and stores of any
width. The kernel keeps all of its linked structures in raw memory, so every
structure argument in the development comes down to two facts: a load reads
back what was stored at the same place, and a store is invisible to every
load that does not overlap it.

`store` is given in closed form rather than as a byte-by-byte loop. The two
agree, and the closed form makes the frame lemmas immediate: outside the
stored range the memory is literally the old one.

## Main definitions

* `Mem`: A memory, one byte per address.
* `load`: The little-endian value of a run of bytes.
* `store`: Write a little-endian value over a run of bytes.
* `fill`: Set a run of bytes to one value.
* `window`: The memory seen from a pointer into it.
* `copy`: Copy a run of bytes from one memory to another.
* `bytes`: A run of bytes as a list.
* `Reads`: The bytes at an address are a given list.
* `AgreeOn`, `AgreeOff`: Two memories coincide on an address range, or
  outside it.

## Theorems

* `load_lt`: A load is bounded by its width.
* `load_congr`: A load depends only on the bytes it covers.
* `load_store_self`: A load reads back the value stored at the same place.
* `load_store_disjoint`: A store is invisible to a load elsewhere.
* `load_add`: A load is put together from its parts.
* `load_of_zero`: A load of a range of zeros.
* `copy_inside`, `copy_outside`, `copy_copy`: What a copy changes, and two
  copies one behind the other.
* `bytes_drop_take`: A part of a run of bytes.
* `reads_append`: Reading two lists one behind the other.
* `agreeOff_store`: A store changes nothing outside its own range.
-/

namespace SysRust

open List

/-- A byte memory. Addresses are plain numbers; the code's own bounds decide
    which of them are ever used. -/
abbrev Mem := Nat → UInt8

/-- The little-endian value of the `n` bytes at `a`. -/
def load (m : Mem) (a : Nat) : Nat → Nat
  | 0 => 0
  | n + 1 => (m a).toNat + 256 * load m (a + 1) n

/-- Write the low `n` bytes of `v` at `a`, least significant first. -/
def store (m : Mem) (a n v : Nat) : Mem :=
  fun b => if a ≤ b ∧ b < a + n then UInt8.ofNat (v / 256 ^ (b - a)) else m b

/-- Set the `n` bytes at `a` to `c`. -/
def fill (m : Mem) (a n : Nat) (c : UInt8) : Mem :=
  fun b => if a ≤ b ∧ b < a + n then c else m b

/-- The memory seen from the pointer `a`. -/
def window (m : Mem) (a : Nat) : Mem := fun b => m (a + b)

/-- Copy the first `n` bytes of `src` to `a`. -/
def copy (m : Mem) (a : Nat) (src : Mem) (n : Nat) : Mem :=
  fun b => if a ≤ b ∧ b < a + n then src (b - a) else m b

/-- The `n` bytes at `a`. -/
def bytes (m : Mem) (a n : Nat) : List UInt8 := (List.range n).map (window m a)

/-- The bytes at `a` are those of the list. -/
def Reads (m : Mem) (a : Nat) (xs : List UInt8) : Prop := bytes m a xs.length = xs

/-- The two memories hold the same bytes on `[lo, hi)`. -/
def AgreeOn (m m' : Mem) (lo hi : Nat) : Prop :=
  ∀ b, lo ≤ b → b < hi → m b = m' b

/-- The two memories hold the same bytes outside `[lo, hi)`. -/
def AgreeOff (m m' : Mem) (lo hi : Nat) : Prop :=
  ∀ b, b < lo ∨ hi ≤ b → m b = m' b

theorem load_lt (m : Mem) (a n : Nat) : load m a n < 256 ^ n := by
  induction n generalizing a with
  | zero => simp only [load, pow_zero, Nat.lt_one_iff]
  | succ k ih =>
    have hb : (m a).toNat < 256 := (m a).toNat_lt
    have hr := ih (a + 1)
    simp only [load, pow_succ]
    omega

/-- A load depends only on the bytes it covers. -/
theorem load_congr {m m' : Mem} {a n : Nat} (h : AgreeOn m m' a (a + n)) :
    load m a n = load m' a n := by
  induction n generalizing a with
  | zero => rfl
  | succ k ih =>
    have hhead : m a = m' a := h a (le_refl _) (by omega)
    have htail := ih (a := a + 1) (fun b h1 h2 => h b (by omega) (by omega))
    simp only [load, hhead, htail]

/-- Loading from a memory whose bytes are the digits of `v` gives `v` back,
    up to the width. -/
theorem load_digits (m : Mem) (a n v : Nat)
    (h : ∀ i, i < n → (m (a + i)).toNat = v / 256 ^ i % 256) : load m a n = v % 256 ^ n := by
  induction n generalizing a v with
  | zero => simp only [load, pow_zero, Nat.mod_one]
  | succ k ih =>
    have hhead := h 0 (by omega)
    have htail := ih (a + 1) (v / 256) (fun i hi => by
      rw [show a + 1 + i = a + (i + 1) by omega, h (i + 1) (by omega), pow_succ,
        Nat.mul_comm, Nat.div_div_eq_div_mul])
    simp only [Nat.add_zero, pow_zero, Nat.div_one] at hhead
    simp only [load, hhead, htail]
    rw [pow_succ, Nat.mul_comm (256 ^ k), Nat.mod_mul]

theorem load_store_self (m : Mem) (a n v : Nat) : load (store m a n v) a n = v % 256 ^ n := by
  refine load_digits _ a n v (fun i hi => ?_)
  simp only [store]
  rw [if_pos ⟨by omega, by omega⟩, Nat.add_sub_cancel_left, UInt8.toNat_ofNat']

theorem store_outside {m : Mem} {a n v b : Nat} (h : b < a ∨ a + n ≤ b) :
    store m a n v b = m b := by
  simp only [store]
  rw [if_neg (by omega)]

/-- A store is invisible to a load elsewhere. -/
theorem load_store_disjoint {m : Mem} {a n v b k : Nat} (h : b + k ≤ a ∨ a + n ≤ b) :
    load (store m a n v) b k = load m b k :=
  load_congr (fun c h1 h2 => store_outside (by omega))

/-- A load is a load of its low part and of its high part. -/
theorem load_add (m : Mem) (a i j : Nat) :
    load m a (i + j) = load m a i + 256 ^ i * load m (a + i) j := by
  induction i generalizing a with
  | zero => simp only [Nat.zero_add, load, pow_zero, Nat.one_mul, Nat.add_zero]
  | succ i ih =>
    rw [show i + 1 + j = i + j + 1 by omega]
    simp only [load]
    rw [ih (a + 1), show a + 1 + i = a + (i + 1) by omega, pow_succ]
    ring

variable {a n i hi lo : Nat} {m m' : Mem}

theorem load_of_zero (h : ∀ b, a ≤ b → b < a + n → m b = 0) : load m a n = 0 := by
  have hz := load_digits m a n 0 (fun i hi => by
    rw [h (a + i) (by omega) (by omega), Nat.zero_div]
    rfl)
  rw [hz, Nat.zero_mod]

theorem fill_inside {m : Mem} {a n b : Nat} {c : UInt8} (h : a ≤ b ∧ b < a + n) :
    fill m a n c b = c := if_pos h

theorem fill_outside {m : Mem} {a n b : Nat} {c : UInt8} (h : b < a ∨ a + n ≤ b) :
    fill m a n c b = m b := if_neg (by omega)

theorem copy_inside {m src : Mem} {a n b : Nat} (h : a ≤ b ∧ b < a + n) :
    copy m a src n b = src (b - a) := if_pos h

theorem copy_outside {m src : Mem} {a n b : Nat} (h : b < a ∨ a + n ≤ b) :
    copy m a src n b = m b := if_neg (by omega)

theorem copy_zero (m : Mem) (a : Nat) (src : Mem) : copy m a src 0 = m := by
  ext b
  rw [copy_outside (by omega)]

theorem copy_congr {src src' : Mem} (h : AgreeOn src src' 0 n) :
    copy m a src n = copy m a src' n := by
  ext b
  by_cases hb : a ≤ b ∧ b < a + n
  · rw [copy_inside hb, copy_inside hb, h (b - a) (by omega) (by omega)]
  · rw [copy_outside (by omega), copy_outside (by omega)]

/-- Two copies one behind the other are one copy of the two sources. -/
theorem copy_copy (m : Mem) (a : Nat) (src : Mem) (n k : Nat) :
    copy (copy m a src n) (a + n) (window src n) k = copy m a src (n + k) := by
  ext b
  by_cases hhi : a + n ≤ b ∧ b < a + n + k
  · rw [copy_inside hhi, copy_inside (by omega), window,
      show n + (b - (a + n)) = b - a by omega]
  · rw [copy_outside (by omega)]
    by_cases hlo : a ≤ b ∧ b < a + n
    · rw [copy_inside hlo, copy_inside (by omega)]
    · rw [copy_outside (by omega), copy_outside (by omega)]

theorem length_bytes (m : Mem) (a n : Nat) : (bytes m a n).length = n := by
  rw [bytes, length_map, length_range]

theorem getElem_bytes (m : Mem) (a n : Nat) (h : i < (bytes m a n).length) :
    (bytes m a n)[i] = m (a + i) := by
  simp only [bytes, getElem_map, getElem_range, window]

theorem bytes_congr (h : AgreeOn m m' a (a + n)) : bytes m a n = bytes m' a n := by
  refine map_congr_left (fun i hi => ?_)
  rw [mem_range] at hi
  exact h (a + i) (by omega) (by omega)

/-- A part of a run of bytes is a run of bytes. -/
theorem bytes_drop_take (m : Mem) (a n off k : Nat) :
    ((bytes m a n).drop off).take k = bytes m (a + off) (min k (n - off)) := by
  refine ext_getElem ?_ (fun i h1 h2 => ?_)
  · rw [length_take, length_drop, length_bytes, length_bytes]
  · rw [getElem_take, getElem_drop, getElem_bytes, getElem_bytes]
    congr 1
    omega

theorem bytes_add (m : Mem) (a i j : Nat) :
    bytes m a (i + j) = bytes m a i ++ bytes m (a + i) j := by
  simp only [bytes, range_add, map_append, map_map]
  congr 1
  refine map_congr_left (fun k _ => ?_)
  simp only [Function.comp_apply, window, Nat.add_assoc]

/-- Two lists stand one behind the other. -/
theorem reads_append (m : Mem) (a : Nat) (xs ys : List UInt8) :
    Reads m a (xs ++ ys) ↔ Reads m a xs ∧ Reads m (a + xs.length) ys := by
  simp only [Reads, length_append, bytes_add]
  refine ⟨fun h => append_inj h (length_bytes _ _ _), fun h => ?_⟩
  rw [h.1, h.2]

theorem Reads.getElem {xs : List UInt8} (h : Reads m a xs) (hi : i < xs.length) :
    m (a + i) = xs[i] := by
  have hb : i < (bytes m a xs.length).length := by rw [length_bytes]; exact hi
  rw [← getElem_bytes m a xs.length hb]
  exact getElem_of_eq h hb

theorem agreeOn_refl (m : Mem) (lo hi : Nat) : AgreeOn m m lo hi := fun _ _ _ => rfl

theorem agreeOn_trans {m'' : Mem} (h1 : AgreeOn m m' lo hi) (h2 : AgreeOn m' m'' lo hi) :
    AgreeOn m m'' lo hi :=
  fun b hlo hhi => (h1 b hlo hhi).trans (h2 b hlo hhi)

theorem agreeOn_mono {lo' hi' : Nat} (h : AgreeOn m m' lo hi) (hlo : lo ≤ lo') (hhi : hi' ≤ hi) :
    AgreeOn m m' lo' hi' :=
  fun b h1 h2 => h b (by omega) (by omega)

/-! ### Outside a range -/

theorem AgreeOff.trans {m'' : Mem} (h1 : AgreeOff m m' lo hi) (h2 : AgreeOff m' m'' lo hi) :
    AgreeOff m m'' lo hi :=
  fun b hb => (h1 b hb).trans (h2 b hb)

theorem AgreeOff.mono {lo' hi' : Nat} (h : AgreeOff m m' lo hi) (hlo : lo' ≤ lo) (hhi : hi ≤ hi') :
    AgreeOff m m' lo' hi' :=
  fun b hb => h b (by omega)

/-- A change inside a range is not seen beside it. -/
theorem AgreeOff.on {lo' hi' : Nat} (h : AgreeOff m m' lo hi) (hout : hi' ≤ lo ∨ hi ≤ lo') :
    AgreeOn m m' lo' hi' :=
  fun b h1 h2 => h b (by omega)

theorem agreeOff_store (m : Mem) (a n v : Nat) : AgreeOff m (store m a n v) a (a + n) :=
  fun _ hb => (store_outside hb).symm

end SysRust
