import Mathlib.Data.List.Basic
import Mathlib.Logic.Function.Basic

/-!
# Ring Buffers

A circular buffer of `n` cells with a write index `head` and a read index
`tail`, both below `n`. The buffer is empty when the two coincide, so it
holds at most `n - 1` elements: the last free cell is never filled.

The contents are the cells from `tail` up to `head`, in that order. A write
at `head` appends to them and an advance of `tail` drops from their front,
and these two facts are all a proof about a client needs.

## Main definitions

* `Ring.count`: How many elements the buffer holds.
* `Ring.contents`: The elements, oldest first.

## Theorems

* `full_iff`: The write index is stuck exactly at `n - 1` elements.
* `contents_push`: Writing at `head` and advancing it appends.
* `contents_drop`: Advancing `tail` drops from the front.
* `contents_take_succ`: Reading cell by cell from `tail` reads the contents.
-/

namespace SysRust.Ring

open List

variable {α : Type} {n head tail : Nat}

/-- The number of elements between `tail` and `head`. -/
def count (n head tail : Nat) : Nat := (head + n - tail) % n

/-- The elements between `tail` and `head`, oldest first. -/
def contents (n : Nat) (buf : Nat → α) (head tail : Nat) : List α :=
  (List.range (count n head tail)).map (fun k => buf ((tail + k) % n))

/-- A remainder of a sum that wraps at most once. -/
theorem mod_wrap {x : Nat} (h : x < 2 * n) : x % n = if x < n then x else x - n := by
  by_cases hx : x < n
  · rw [if_pos hx, Nat.mod_eq_of_lt hx]
  · rw [if_neg hx, Nat.mod_eq_sub_mod (by omega), Nat.mod_eq_of_lt (by omega)]

theorem count_eq (hh : head < n) (ht : tail < n) :
    count n head tail = if tail ≤ head then head - tail else head + n - tail := by
  unfold count
  rw [mod_wrap (by omega)]
  by_cases h : tail ≤ head
  · rw [if_neg (by omega), if_pos h]
    omega
  · rw [if_pos (by omega), if_neg h]

theorem count_lt (hh : head < n) (ht : tail < n) : count n head tail < n := by
  rw [count_eq hh ht]
  split_ifs <;> omega

theorem count_self (ht : tail < n) : count n tail tail = 0 := by
  rw [count_eq ht ht, if_pos (Nat.le_refl _), Nat.sub_self]

theorem next_lt (hh : head < n) : (head + 1) % n < n := Nat.mod_lt _ (by omega)

/-- The cell `count` places after `tail` is the one at `head`. -/
theorem tail_add_count (hh : head < n) (ht : tail < n) :
    (tail + count n head tail) % n = head := by
  have hlt := count_lt hh ht
  rw [mod_wrap (by omega), count_eq hh ht]
  split_ifs <;> omega

theorem full_iff (hh : head < n) (ht : tail < n) :
    (head + 1) % n = tail ↔ count n head tail + 1 = n := by
  rw [count_eq hh ht, mod_wrap (by omega)]
  split_ifs <;> omega

theorem count_push (hh : head < n) (ht : tail < n) (hfull : (head + 1) % n ≠ tail) :
    count n ((head + 1) % n) tail = count n head tail + 1 := by
  have hroom : count n head tail + 1 ≠ n := fun h => hfull ((full_iff hh ht).mpr h)
  rw [count_eq (next_lt hh) ht]
  rw [count_eq hh ht] at hroom ⊢
  rw [mod_wrap (by omega)] at hfull ⊢
  split_ifs at * <;> omega

/-- Distinct places of the buffer are distinct cells. -/
theorem cell_ne {i j : Nat} (ht : tail < n) (hi : i < n) (hj : j < n) (h : i ≠ j) :
    (tail + i) % n ≠ (tail + j) % n := by
  rw [mod_wrap (by omega), mod_wrap (by omega)]
  split_ifs <;> omega

@[simp] theorem length_contents (buf : Nat → α) :
    (contents n buf head tail).length = count n head tail := by
  rw [contents, length_map, length_range]

/-- Writing the cell at `head` and advancing appends the element. -/
theorem contents_push (buf : Nat → α) (x : α) (hh : head < n) (ht : tail < n)
    (hfull : (head + 1) % n ≠ tail) :
    contents n (Function.update buf head x) ((head + 1) % n) tail =
      contents n buf head tail ++ [x] := by
  have hlt := count_lt hh ht
  unfold contents
  rw [count_push hh ht hfull, range_succ, map_append, map_singleton,
    tail_add_count hh ht, Function.update_self]
  congr 1
  refine map_congr_left (fun k hk => ?_)
  -- The cells in use are not the one at `head`.
  have hk' := mem_range.mp hk
  have hne := cell_ne ht (by omega) hlt (Nat.ne_of_lt hk')
  rw [tail_add_count hh ht] at hne
  exact Function.update_of_ne hne x buf

variable {k : Nat}

theorem count_advance (hh : head < n) (ht : tail < n) (hk : k ≤ count n head tail) :
    count n head ((tail + k) % n) = count n head tail - k := by
  have hlt := count_lt hh ht
  rw [count_eq hh (Nat.mod_lt _ (by omega))]
  rw [count_eq hh ht] at hk hlt ⊢
  rw [mod_wrap (by split_ifs at hk <;> omega)]
  split_ifs at * <;> omega

/-- Advancing `tail` drops the oldest elements. -/
theorem contents_drop (buf : Nat → α) (hh : head < n) (ht : tail < n) (hk : k ≤ count n head tail) :
    contents n buf head ((tail + k) % n) = (contents n buf head tail).drop k := by
  have hlen : (contents n buf head ((tail + k) % n)).length =
      ((contents n buf head tail).drop k).length := by
    rw [length_contents, length_drop, length_contents, count_advance hh ht hk]
  refine ext_getElem hlen (fun i h1 h2 => ?_)
  simp only [contents, getElem_drop, getElem_map, getElem_range]
  rw [Nat.mod_add_mod, Nat.add_assoc]

/-- One more cell read from `tail` is one more element of the contents. -/
theorem contents_take_succ (buf : Nat → α) (hk : k < count n head tail) :
    (contents n buf head tail).take (k + 1) =
      (contents n buf head tail).take k ++ [buf ((tail + k) % n)] := by
  rw [← length_contents buf] at hk
  rw [take_add_one, List.getElem?_eq_getElem hk]
  simp only [contents, getElem_map, getElem_range, Option.toList_some]

end SysRust.Ring
