import SysRust.Core.BrkAllocator
import SysRust.Lib.Tiling

/-!
# Blocks of the User Heap

The heap of `BrkAllocator` without its headers: a list of blocks that tiles
the range from `HEAD` to `HEAP_END`, and what the operations do to the list.
Allocating carves a used block out of a free one, growing makes the last
block longer or adds one, and freeing joins a block with its neighbours.

A request does not begin where the block's data begins but at the next
multiple of its alignment, so whether it fits is a question about the address
of the block as well as its size. `Room` is that question without the
wrap-around of the code's arithmetic, which does not occur below `USER_END`.

## Main definitions

* `USER_END`: Where the addresses of a program end.
* `Block`, `Tiles`, `used`: The blocks, and the ones in use.
* `Request`: The bounds on a request.
* `Room`: The request fits into the block.
* `carve`, `extend`, `join`, `absorbNext`, `absorbPrev`: The operations.

## Theorems

* `alignUp_spec`, `alignedStart_spec`: Rounding up.
* `room_iff`: The test of the code.
* `tiles_carve`, `tiles_extend`, `tiles_absorb`: The operations keep the
  tiling.
* `used_carve`, `used_extend`, `used_absorb`: What they do to the used
  blocks.
-/

namespace SysRust.BrkAllocator

open List

/-- The end of the lower half of the address space of an x86-64, which is
    where programs are. -/
def USER_END : Nat := 2 ^ 47

/-! ### Rounding up -/

theorem alignUp_spec {addr align : Nat} (hpos : 0 < align) (h : addr + align ≤ 2 ^ 64) :
    addr ≤ alignUp addr align ∧ alignUp addr align < addr + align ∧
      alignUp addr align % align = 0 := by
  have hu : u64 (addr + align - 1) = addr + align - 1 := u64_of_lt (by omega)
  rw [alignUp, hu]
  have hle := Nat.div_mul_le_self (addr + align - 1) align
  have hlt := Nat.lt_div_mul_add hpos (a := addr + align - 1)
  exact ⟨by omega, by omega, Nat.mul_mod_left _ _⟩

/-- A request with the size and alignment that `alloc` works with. -/
structure Request (size align : Nat) : Prop where
  min_size : MIN_USABLE ≤ size
  min_align : HEADER_ALIGN ≤ align
  pow : ∃ k, align = 2 ^ k
  fits : size + align ≤ 2 ^ 63 + 24

theorem Layout.request (l : Layout) :
    Request (max l.size MIN_USABLE) (max l.align HEADER_ALIGN) := by
  have hfits := l.fits
  have hpow : ∃ k, max l.align HEADER_ALIGN = 2 ^ k := by
    rcases Nat.le_total l.align HEADER_ALIGN with hle | hle
    · exact ⟨3, Nat.max_eq_right hle⟩
    · rw [Nat.max_eq_left hle]
      exact l.pow
  refine ⟨Nat.le_max_right _ _, Nat.le_max_right _ _, hpow, ?_⟩
  simp only [MIN_USABLE, HEADER_ALIGN]
  omega

section Padding

variable {size align block : Nat} (hr : Request size align) (hb : block ≤ USER_END)

include hr hb

/-- Where a request begins in a block. -/
theorem alignedStart_spec :
    block + HEADER_SIZE ≤ alignedStart block align ∧
      alignedStart block align < block + HEADER_SIZE + align ∧
      alignedStart block align % align = 0 := by
  have hfits := hr.fits
  have halign := hr.min_align
  simp only [HEADER_ALIGN, USER_END, HEADER_SIZE] at *
  have hu : u64 (block + 24) = block + 24 := u64_of_lt (by omega)
  simp only [alignedStart, HEADER_SIZE, hu]
  exact alignUp_spec (by omega) (by omega)

/-- What the request takes, the padding included. -/
theorem needed_eq :
    needed block size align = size + (alignedStart block align - (block + HEADER_SIZE)) := by
  obtain ⟨hlo, hhi, _⟩ := alignedStart_spec hr hb
  have hfits := hr.fits
  simp only [USER_END, HEADER_SIZE] at *
  have hu : u64 (block + 24) = block + 24 := u64_of_lt (by omega)
  have hpad : padding block align = alignedStart block align - (block + 24) := by
    simp only [padding, HEADER_SIZE, hu]
    exact wrappingSub64_of_le hlo (by omega)
  rw [needed, hpad]
  exact u64_of_lt (by omega)

end Padding

/-! ### Blocks -/

/-- A block: the address of its header, its usable bytes and its flag. -/
structure Block where
  addr : Nat
  size : Nat
  free : Bool
deriving DecidableEq

/-- The address just past the block. -/
def Block.stop (b : Block) : Nat := b.addr + HEADER_SIZE + b.size

theorem Block.header_le (b : Block) : b.addr + HEADER_SIZE ≤ b.stop := Nat.le_add_right _ _

/-- The blocks fill `[lo, hi)`. -/
abbrev Tiles (lo : Nat) (bs : List Block) (hi : Nat) : Prop :=
  Tiling.Tiles Block.addr Block.stop lo bs hi

/-- The blocks in use. -/
def used (bs : List Block) : List Block := bs.filter (fun b => !b.free)

theorem used_append (xs ys : List Block) : used (xs ++ ys) = used xs ++ used ys :=
  filter_append xs ys

theorem used_cons (b : Block) (bs : List Block) :
    used (b :: bs) = if b.free = true then used bs else b :: used bs := by
  rw [used, filter_cons]
  cases b.free <;> rfl

variable {b : Block} {hi lo : Nat} {post : List Block}

theorem mem_used {bs : List Block} : b ∈ used bs ↔ b ∈ bs ∧ b.free = false := by
  simp only [used, mem_filter, Bool.not_eq_eq_eq_not, Bool.not_true]

variable {pre : List Block}

/-- The block before and the blocks behind a block of a tiling. -/
theorem tiles_middle (h : Tiles lo (pre ++ b :: post) hi) :
    Tiles lo pre b.addr ∧ Tiles b.stop post hi := by
  rcases (Tiling.tiles_append _ _ _ _ _ _).mp h with ⟨mid, hpre, haddr, hpost⟩
  rw [← haddr] at hpre
  exact ⟨hpre, hpost⟩

/-- A block may be replaced by a tiling of its range. -/
theorem tiles_replace {mid : List Block} (h : Tiles lo (pre ++ b :: post) hi)
    (hmid : Tiles b.addr mid b.stop) : Tiles lo (pre ++ (mid ++ post)) hi := by
  obtain ⟨hpre, hpost⟩ := tiles_middle h
  refine (Tiling.tiles_append _ _ _ _ _ _).mpr ⟨b.addr, hpre, ?_⟩
  exact (Tiling.tiles_append _ _ _ _ _ _).mpr ⟨b.stop, hmid, hpost⟩

/-- Addresses of blocks on either side of a block. -/
theorem tiles_around (h : Tiles lo (pre ++ b :: post) hi) :
    (∀ c ∈ pre, c.stop ≤ b.addr) ∧ (∀ c ∈ post, b.stop ≤ c.addr) ∧ b.stop ≤ hi ∧ lo ≤ b.addr := by
  obtain ⟨hpre, hpost⟩ := tiles_middle h
  refine ⟨fun c hc => (Tiling.tiles_bounds Block.header_le hpre c hc).2,
    fun c hc => (Tiling.tiles_bounds Block.header_le hpost c hc).1, ?_, ?_⟩
  · exact Tiling.tiles_le Block.header_le hpost
  · exact Tiling.tiles_le Block.header_le hpre

/-! ### Allocating -/

/-- The request, begun at a multiple of its alignment, ends in the block. -/
def Room (size align : Nat) (b : Block) : Prop := alignedStart b.addr align + size ≤ b.stop

/-- The test of the code. -/
theorem room_iff {size align : Nat} (hr : Request size align) (hb : b.addr ≤ USER_END) :
    needed b.addr size align ≤ b.size ↔ Room size align b := by
  obtain ⟨hlo, _, _⟩ := alignedStart_spec hr hb
  rw [needed_eq hr hb, Room, Block.stop]
  omega

/-- Use the block, and split off what is left behind `n` bytes if it is
    large enough. -/
def carve (n : Nat) (b : Block) : List Block :=
  if HEADER_SIZE + MIN_USABLE ≤ b.size - n then
    [{ addr := b.addr, size := n, free := false },
      { addr := b.addr + HEADER_SIZE + n, size := b.size - n - HEADER_SIZE, free := true }]
  else [{ b with free := false }]

theorem tiles_carve (n : Nat) (b : Block) : Tiles b.addr (carve n b) b.stop := by
  by_cases hsplit : HEADER_SIZE + MIN_USABLE ≤ b.size - n
  · rw [carve, if_pos hsplit]
    refine ⟨rfl, rfl, ?_⟩
    simp only [Tiling.Tiles, Block.stop, HEADER_SIZE, MIN_USABLE] at *
    omega
  · rw [carve, if_neg hsplit]
    exact ⟨rfl, rfl⟩

/-- One block is used, and it has the bytes that are needed. -/
theorem used_carve {n : Nat} (h : n ≤ b.size) :
    ∃ c, used (carve n b) = [c] ∧ c.addr = b.addr ∧ b.addr + HEADER_SIZE + n ≤ c.stop ∧
      c.stop ≤ b.stop := by
  by_cases hsplit : HEADER_SIZE + MIN_USABLE ≤ b.size - n
  · rw [carve, if_pos hsplit]
    refine ⟨_, rfl, rfl, Nat.le_refl _, ?_⟩
    simp only [Block.stop]
    omega
  · rw [carve, if_neg hsplit]
    refine ⟨_, rfl, rfl, ?_, Nat.le_refl _⟩
    simp only [Block.stop]
    omega

/-! ### Growing -/

/-- The blocks after `total` more bytes at `top`, where the last block of the
    list `pre ++ [l]` ends: it takes them if it is free. -/
def extend (pre : List Block) (l : Block) (total : Nat) : List Block × Block :=
  if l.free = true then (pre, { l with size := l.size + total })
  else (pre ++ [l], { addr := l.stop, size := total - HEADER_SIZE, free := true })

section Extend

variable {l : Block} {total : Nat}

/-- The last block is free, and the heap ends where it ends. -/
theorem extend_last (pre : List Block) (l : Block) (htotal : HEADER_SIZE ≤ total) :
    (extend pre l total).2.free = true ∧
      (extend pre l total).2.addr = (if l.free = true then l.addr else l.stop) ∧
      (extend pre l total).2.stop = l.stop + total := by
  by_cases hfree : l.free = true
  · rw [extend, if_pos hfree, if_pos hfree]
    refine ⟨hfree, rfl, ?_⟩
    simp only [Block.stop]
    omega
  · rw [extend, if_neg hfree, if_neg hfree]
    refine ⟨rfl, rfl, ?_⟩
    simp only [Block.stop] at *
    omega

theorem tiles_extend (htotal : HEADER_SIZE ≤ total) (h : Tiles lo (pre ++ [l]) hi) :
    Tiles lo ((extend pre l total).1 ++ [(extend pre l total).2]) (hi + total) := by
  have hlast := (extend_last pre l htotal).2.2
  have hstop : l.stop = hi := (tiles_middle h).2
  rw [hstop] at hlast
  refine (Tiling.tiles_append _ _ _ _ _ _).mpr ⟨(extend pre l total).2.addr, ?_, rfl, hlast⟩
  by_cases hfree : l.free = true
  · rw [extend, if_pos hfree]
    exact (tiles_middle h).1
  · rw [extend, if_neg hfree]
    rw [← hstop] at h
    exact h

theorem used_extend :
    used ((extend pre l total).1 ++ [(extend pre l total).2]) = used (pre ++ [l]) := by
  by_cases hfree : l.free = true
  · rw [extend, if_pos hfree]
    simp only [used_append, used_cons, hfree, if_true]
  · rw [extend, if_neg hfree]
    rw [used_append, used_cons, if_pos rfl]
    exact append_nil _

end Extend

/-! ### Freeing -/

/-- Two neighbours as one block. -/
def join (b c : Block) : Block := { b with size := b.size + HEADER_SIZE + c.size }

/-- Join a block with the one behind it, if that is free. -/
def absorbNext (b : Block) : List Block → List Block
  | [] => [b]
  | c :: post => if c.free = true then join b c :: post else b :: c :: post

/-- Join a block with the one before it, the last of the list, if that is
    free. -/
def absorbPrev (pre : List Block) (b : Block) : List Block :=
  match pre.getLast? with
  | none => [b]
  | some l => if l.free = true then pre.dropLast ++ [join l b] else pre ++ [b]

theorem join_stop {c : Block} (h : b.stop = c.addr) : (join b c).stop = c.stop := by
  simp only [join, Block.stop] at *
  omega

/-- The block at the front of the result, and what is behind it. -/
theorem absorbNext_eq (b : Block) (post : List Block) :
    ∃ c post', absorbNext b post = c :: post' ∧ c.addr = b.addr ∧ c.free = b.free ∧
      used post' = used post ∧ ∀ hi, Tiles b.stop post hi → Tiles c.stop post' hi := by
  cases post with
  | nil => exact ⟨b, [], rfl, rfl, rfl, rfl, fun _ h => h⟩
  | cons c post =>
    by_cases hfree : c.free = true
    · refine ⟨join b c, post, by rw [absorbNext, if_pos hfree], rfl, rfl, ?_, fun hi h => ?_⟩
      · rw [used_cons, if_pos hfree]
      · rw [join_stop h.1.symm]
        exact h.2
    · exact ⟨b, c :: post, by rw [absorbNext, if_neg hfree], rfl, rfl, rfl, fun _ h => h⟩

theorem absorbPrev_concat (pre : List Block) (l b : Block) :
    absorbPrev (pre ++ [l]) b =
      if l.free = true then pre ++ [join l b] else pre ++ [l] ++ [b] := by
  rw [absorbPrev, List.getLast?_concat, dropLast_concat]

theorem tiles_absorbPrev (h : Tiles lo (pre ++ b :: post) hi) :
    Tiles lo (absorbPrev pre b ++ post) hi := by
  rcases eq_nil_or_concat pre with rfl | ⟨pre', l, rfl⟩
  · exact h
  · rw [concat_eq_append, absorbPrev_concat]
    rw [concat_eq_append] at h
    by_cases hfree : l.free = true
    · rw [if_pos hfree]
      rw [append_assoc, singleton_append] at h ⊢
      obtain ⟨hpre, haddr, hpost⟩ := tiles_middle h
      refine (Tiling.tiles_append _ _ _ _ _ _).mpr ⟨l.addr, hpre, rfl, ?_⟩
      rw [join_stop haddr.symm]
      exact hpost
    · rw [if_neg hfree, append_assoc _ [b], singleton_append]
      exact h

theorem used_absorbPrev (hb : b.free = true) : used (absorbPrev pre b) = used pre := by
  rcases eq_nil_or_concat pre with rfl | ⟨pre', l, rfl⟩
  · simp only [absorbPrev, List.getLast?_nil, used_cons, hb, if_true]
  · rw [concat_eq_append, absorbPrev_concat]
    by_cases hfree : l.free = true
    · rw [if_pos hfree, used_append, used_append, used_cons, used_cons, if_pos hfree,
        if_pos (show (join l b).free = true from hfree)]
    · rw [if_neg hfree, used_append, used_cons, if_pos hb]
      exact append_nil _

end SysRust.BrkAllocator
