import SysRust.Core.Heap
import SysRust.Lib.Tiling

/-!
# The Abstract Block List

What the kernel heap is for, stated without memory: a list of blocks, each
an address, a size and a free flag, that tiles the heap from its start to
its top. Allocating takes the first free block that is large enough and cuts
off what is not needed; freeing marks a block and glues neighbouring free
blocks together; growing appends one free block.

The operations here are functions on lists, so the structural facts about
them are inductions over the list. `Theory.Heap.Refine` connects them to the
header memory of the code.

`absorb` puts one block in front of a list that is already glued, and
`glue` is its fold. The code glues from the front, merging a block with the
next as long as both are free; `glue_cons_cons_free` is the equation that
makes the two the same.

## Main definitions

* `Block`: An abstract block.
* `Tiles`: A list of blocks fills an address range.
* `place`: Allocate a block, splitting off the remainder.
* `firstFit`: Allocate from the first block that fits.
* `glue`: Merge neighbouring free blocks.
* `release`: Mark the block of a pointer free.
* `Blocks`: The abstract heap, with `expand`, `search`, `alloc` and `free`.
* `livePtrs`: The pointers of the blocks in use.
* `Blocks.Ok`: The structural invariant.

## Theorems

* `tiles_append`: Splitting a tiling.
* `tiles_bounds`: A block of a tiling lies inside its range.
* `tiles_sorted`: A tiling is in strictly increasing address order.
* `tiles_length`: A tiling of `n` bytes has at most `n / 16` blocks.
* `glue_cons_cons_free`: Gluing from the front.
* `alloc_ok`, `free_ok`: The operations keep the invariant.
* `alloc_granted`, `free_livePtrs`: What they do to the live pointers.
-/

namespace SysRust

namespace Heap

/-- A block: the address of its header, its usable bytes and its flag. -/
structure Block where
  addr : Nat
  size : Nat
  free : Bool
deriving DecidableEq, Repr

/-- The address just past the block. -/
def Block.stop (b : Block) : Nat := b.addr + HEADER_SIZE + b.size

/-- The pointer a client holds for the block. -/
def Block.ptr (b : Block) : Nat := b.addr + HEADER_SIZE

/-- The blocks fill `[lo, hi)` one after the other. -/
def Tiles : Nat → List Block → Nat → Prop
  | lo, [], hi => lo = hi
  | lo, b :: bs, hi => b.addr = lo ∧ Tiles b.stop bs hi

variable {bs bs' : List Block} {hi lo p size : Nat} {b : Block}

/-- The blocks are a tiling in the sense of the library. -/
theorem tiles_iff : Tiles lo bs hi ↔ Tiling.Tiles Block.addr Block.stop lo bs hi := by
  induction bs generalizing lo with
  | nil => rfl
  | cons b bs ih => rw [Tiles, Tiling.Tiles, ih]

theorem Block.header_le (b : Block) : b.addr + HEADER_SIZE ≤ b.stop := Nat.le_add_right _ _

theorem tiles_append {lo hi : Nat} {xs ys : List Block} :
    Tiles lo (xs ++ ys) hi ↔ ∃ mid, Tiles lo xs mid ∧ Tiles mid ys hi := by
  simp only [tiles_iff, Tiling.tiles_append]

theorem tiles_le (h : Tiles lo bs hi) : lo ≤ hi :=
  Tiling.tiles_le Block.header_le (tiles_iff.mp h)

/-- A block of a tiling lies inside its range. -/
theorem tiles_bounds (h : Tiles lo bs hi) : ∀ b ∈ bs, lo ≤ b.addr ∧ b.stop ≤ hi :=
  Tiling.tiles_bounds Block.header_le (tiles_iff.mp h)

/-- A tiling is in strictly increasing address order. -/
theorem tiles_sorted (h : Tiles lo bs hi) : bs.Pairwise (fun a b => a.addr < b.addr) :=
  Tiling.tiles_sorted Block.header_le (by decide) (tiles_iff.mp h)

/-- Every block takes a header, so a range holds few of them. -/
theorem tiles_length (h : Tiles lo bs hi) : lo + HEADER_SIZE * bs.length ≤ hi :=
  Tiling.tiles_length Block.header_le (tiles_iff.mp h)

/-- Two blocks of a tiling do not overlap. -/
theorem tiles_apart (ht : Tiles lo bs hi) {c : Block} (hb : b ∈ bs) (hc : c ∈ bs) :
    b = c ∨ b.stop ≤ c.addr ∨ c.stop ≤ b.addr :=
  Tiling.tiles_apart Block.header_le (tiles_iff.mp ht) hb hc

/-- A tiling by blocks whose sizes are multiples of 8. -/
def Fills (lo : Nat) (bs : List Block) (hi : Nat) : Prop :=
  Tiles lo bs hi ∧ ∀ b ∈ bs, b.size % 8 = 0

theorem fills_cons :
    Fills lo (b :: bs) hi ↔ b.addr = lo ∧ b.size % 8 = 0 ∧ Fills b.stop bs hi := by
  rw [Fills, Tiles, List.forall_mem_cons, and_assoc, and_left_comm (b := b.size % 8 = 0), Fills]

theorem fills_append {xs ys : List Block} :
    Fills lo (xs ++ ys) hi ↔ ∃ mid, Fills lo xs mid ∧ Fills mid ys hi := by
  simp only [Fills, tiles_append, List.forall_mem_append]
  constructor
  · rintro ⟨⟨mid, hx, hy⟩, hxs, hys⟩
    exact ⟨mid, ⟨hx, hxs⟩, hy, hys⟩
  · rintro ⟨mid, ⟨hx, hxs⟩, hy, hys⟩
    exact ⟨⟨mid, hx, hy⟩, hxs, hys⟩

/-- Allocate the block: keep `size` bytes and split off the rest if it has
    room for a header and `MIN_SPLIT` bytes, else hand out the whole block. -/
def place (size : Nat) (b : Block) : List Block :=
  if size + HEADER_SIZE + MIN_SPLIT ≤ b.size then
    [{ addr := b.addr, size := size, free := false },
     { addr := b.addr + HEADER_SIZE + size, size := b.size - size - HEADER_SIZE, free := true }]
  else [{ b with free := false }]

/-- Allocate from the first free block of at least `size` bytes. -/
def firstFit (size : Nat) : List Block → Option (List Block × Nat)
  | [] => none
  | b :: bs =>
    if b.free = true ∧ size ≤ b.size then some (place size b ++ bs, b.ptr)
    else (firstFit size bs).map (fun r => (b :: r.1, r.2))

/-- The free block that covers two neighbours and the header between them. -/
def Block.join (b c : Block) : Block :=
  { addr := b.addr, size := b.size + HEADER_SIZE + c.size, free := true }

/-- Put a block in front of a list, merging it with the first if both are
    free. -/
def absorb (b : Block) : List Block → List Block
  | [] => [b]
  | c :: cs =>
    if b.free = true ∧ c.free = true then b.join c :: cs else b :: c :: cs

/-- Merge neighbouring free blocks. -/
def glue (bs : List Block) : List Block := bs.foldr absorb []

theorem glue_cons (b : Block) (bs : List Block) : glue (b :: bs) = absorb b (glue bs) := rfl

/-- Gluing from the front: two free blocks may be merged before the rest of
    the list is looked at. -/
theorem glue_cons_cons_free (b c : Block) (bs : List Block)
    (hb : b.free = true) (hc : c.free = true) :
    glue (b :: c :: bs) = glue (b.join c :: bs) := by
  simp only [glue_cons]
  cases glue bs with
  | nil => simp only [absorb, hb, hc, and_self, if_true]
  | cons d ds =>
    by_cases hd : d.free = true
    · simp only [absorb, Block.join, hb, hc, hd, and_self, if_true, List.cons.injEq,
        Block.mk.injEq, true_and, and_true]
      omega
    · simp only [absorb, Block.join, hb, hc, hd, and_self, if_true, and_false, if_false,
        Bool.false_eq_true]

/-- A block that cannot merge with its neighbour stays in front. -/
theorem glue_cons_cons_keep (b c : Block) (bs : List Block)
    (h : ¬ (b.free = true ∧ c.free = true)) : glue (b :: c :: bs) = b :: glue (c :: bs) := by
  -- The first block of `glue (c :: bs)` has the flag of `c`.
  have hhead : ∃ d ds, glue (c :: bs) = d :: ds ∧ d.free = c.free := by
    rw [glue_cons]
    cases glue bs with
    | nil => exact ⟨c, [], rfl, rfl⟩
    | cons d ds =>
      by_cases hcd : c.free = true ∧ d.free = true
      · exact ⟨_, ds, if_pos hcd, hcd.1.symm⟩
      · exact ⟨c, d :: ds, if_neg hcd, rfl⟩
  rcases hhead with ⟨d, ds, hd, hfree⟩
  rw [glue_cons, hd]
  simp only [absorb]
  rw [if_neg (by rw [hfree]; exact h)]

/-- Mark the block of the pointer free. -/
def release (p : Nat) (bs : List Block) : List Block :=
  bs.map (fun b => if b.ptr = p then { b with free := true } else b)

/-- The pointers of the blocks in use, in address order. -/
def livePtrs (bs : List Block) : List Nat :=
  (bs.filter (fun b => !b.free)).map Block.ptr

theorem livePtrs_cons (b : Block) (bs : List Block) :
    livePtrs (b :: bs) = if b.free = true then livePtrs bs else b.ptr :: livePtrs bs := by
  cases hb : b.free <;> simp [livePtrs, hb]

theorem livePtrs_append (xs ys : List Block) :
    livePtrs (xs ++ ys) = livePtrs xs ++ livePtrs ys := by
  simp only [livePtrs, List.filter_append, List.map_append]

theorem mem_livePtrs : p ∈ livePtrs bs ↔ ∃ b ∈ bs, b.free = false ∧ b.ptr = p := by
  simp only [livePtrs, List.mem_map, List.mem_filter, Bool.not_eq_true', and_assoc]

/-! ### First fit -/

theorem fills_place (hs : size % 8 = 0) (hb : b.size % 8 = 0) :
    Fills b.addr (place size b) b.stop := by
  unfold place
  by_cases h : size + HEADER_SIZE + MIN_SPLIT ≤ b.size
  · rw [if_pos h]
    refine fills_cons.mpr ⟨rfl, hs, fills_cons.mpr ⟨rfl, ?_, ?_, List.forall_mem_nil _⟩⟩
    · simp only [HEADER_SIZE]
      omega
    · simp only [Tiles, Block.stop]
      omega
  · rw [if_neg h]
    exact fills_cons.mpr ⟨rfl, hb, rfl, List.forall_mem_nil _⟩

/-- Only the first block `place` makes is in use. -/
theorem livePtrs_place (size : Nat) (b : Block) : livePtrs (place size b) = [b.ptr] := by
  unfold place
  by_cases h : size + HEADER_SIZE + MIN_SPLIT ≤ b.size
  · rw [if_pos h]; rfl
  · rw [if_neg h]; rfl

/-- First fit cuts one free block in two and leaves the rest alone. -/
theorem firstFit_split (h : firstFit size bs = some (bs', p)) :
    ∃ pre b post, bs = pre ++ b :: post ∧ bs' = pre ++ (place size b ++ post) ∧
      b.free = true ∧ size ≤ b.size ∧ p = b.ptr := by
  fun_induction firstFit size bs generalizing bs' with
  | case1 => cases h
  | case2 c bs hc =>
    rw [Option.some.injEq, Prod.mk.injEq] at h
    exact ⟨[], c, bs, rfl, h.1.symm, hc.1, hc.2, h.2.symm⟩
  | case3 c bs _ ih =>
    rcases Option.map_eq_some_iff.mp h with ⟨r, hr, hrp⟩
    rw [Prod.mk.injEq] at hrp
    rcases ih (hr.trans (by rw [← hrp.2])) with ⟨pre, b, post, h1, h2, h3, h4, h5⟩
    exact ⟨c :: pre, b, post, by rw [h1]; rfl, by rw [← hrp.1, h2]; rfl, h3, h4, h5⟩

theorem firstFit_fills (h : firstFit size bs = some (bs', p)) (hs : size % 8 = 0)
    (ht : Fills lo bs hi) : Fills lo bs' hi := by
  rcases firstFit_split h with ⟨pre, b, post, rfl, rfl, _, _, _⟩
  rcases fills_append.mp ht with ⟨mid, hpre, hrest⟩
  rcases fills_cons.mp hrest with ⟨rfl, hb, hpost⟩
  exact fills_append.mpr ⟨b.addr, hpre, fills_append.mpr ⟨b.stop, fills_place hs hb, hpost⟩⟩

/-- First fit adds exactly the returned pointer to the live ones. -/
theorem firstFit_livePtrs (h : firstFit size bs = some (bs', p)) :
    (livePtrs bs').Perm (p :: livePtrs bs) := by
  rcases firstFit_split h with ⟨pre, b, post, rfl, rfl, hfree, _, rfl⟩
  simp only [livePtrs_append, livePtrs_cons, livePtrs_place, hfree, if_true]
  exact List.perm_middle

/-! ### Gluing -/

theorem join_stop {c : Block} (h : c.addr = b.stop) : (b.join c).stop = c.stop := by
  simp only [Block.stop, Block.join] at h ⊢
  omega

theorem fills_absorb (hb : b.size % 8 = 0) (h : Fills b.stop bs hi) :
    Fills b.addr (absorb b bs) hi := by
  cases bs with
  | nil => exact fills_cons.mpr ⟨rfl, hb, h⟩
  | cons c cs =>
    simp only [absorb]
    by_cases hf : b.free = true ∧ c.free = true
    · rw [if_pos hf]
      rcases fills_cons.mp h with ⟨haddr, hc, hrest⟩
      refine fills_cons.mpr ⟨rfl, ?_, join_stop haddr ▸ hrest⟩
      simp only [Block.join, HEADER_SIZE]
      omega
    · rw [if_neg hf]
      exact fills_cons.mpr ⟨rfl, hb, h⟩

theorem fills_glue (h : Fills lo bs hi) : Fills lo (glue bs) hi := by
  induction bs generalizing lo with
  | nil => exact h
  | cons b bs ih =>
    rcases fills_cons.mp h with ⟨rfl, hb, hrest⟩
    exact fills_absorb hb (ih hrest)

/-- Gluing touches only free blocks, so the pointers in use are the same. -/
theorem livePtrs_glue (bs : List Block) : livePtrs (glue bs) = livePtrs bs := by
  induction bs with
  | nil => rfl
  | cons b bs ih =>
    rw [glue_cons, livePtrs_cons, ← ih]
    cases glue bs with
    | nil => simp only [absorb, livePtrs_cons]
    | cons c cs =>
      simp only [absorb]
      by_cases hf : b.free = true ∧ c.free = true
      · rw [if_pos hf, if_pos hf.1, livePtrs_cons, livePtrs_cons, if_pos hf.2]
        exact if_pos rfl
      · rw [if_neg hf, livePtrs_cons]

/-! ### Releasing -/

theorem fills_release (p : Nat) (h : Fills lo bs hi) : Fills lo (release p bs) hi := by
  induction bs generalizing lo with
  | nil => exact h
  | cons b bs ih =>
    rcases fills_cons.mp h with ⟨haddr, hb, hrest⟩
    unfold release at ih ⊢
    rw [List.map_cons]
    by_cases hp : b.ptr = p
    · rw [if_pos hp]
      exact fills_cons.mpr ⟨haddr, hb, ih hrest⟩
    · rw [if_neg hp]
      exact fills_cons.mpr ⟨haddr, hb, ih hrest⟩

/-- Releasing a pointer leaves blocks with other pointers alone. -/
theorem release_of_ne (h : ∀ b ∈ bs, b.ptr ≠ p) : release p bs = bs := by
  refine (List.map_congr_left (fun b hb => ?_)).trans (List.map_id bs)
  exact if_neg (h b hb)

/-- What is in the place of a block is released, and nothing else. -/
theorem release_middle {pre post : List Block} (hn : ((pre ++ b :: post).map Block.ptr).Nodup)
    (xs : List Block) :
    release b.ptr (pre ++ (xs ++ post)) = pre ++ (release b.ptr xs ++ post) := by
  rw [(List.perm_middle.map Block.ptr).nodup_iff, List.map_cons, List.nodup_cons] at hn
  have hother : ∀ c ∈ pre ++ post, c.ptr ≠ b.ptr :=
    fun c hc hcp => hn.1 (hcp ▸ List.mem_map_of_mem hc)
  have hpre := release_of_ne (fun c hc => hother c (List.mem_append_left _ hc))
  have hpost := release_of_ne (fun c hc => hother c (List.mem_append_right _ hc))
  unfold release at *
  rw [List.map_append, List.map_append, hpre, hpost]

/-- Different blocks of a tiling have different pointers. -/
theorem tiles_ptr_inj (h : Tiles lo bs hi) : (bs.map Block.ptr).Nodup := by
  refine List.Pairwise.map _ (fun a b hab => ?_) (tiles_sorted h)
  simp only [Block.ptr]
  omega

/-- Releasing removes exactly the pointer from the live ones. -/
theorem livePtrs_release (p : Nat) (hn : (bs.map Block.ptr).Nodup) :
    livePtrs (release p bs) = (livePtrs bs).erase p := by
  induction bs with
  | nil => rfl
  | cons b bs ih =>
    rw [List.map_cons, List.nodup_cons] at hn
    have hrest := ih hn.2
    simp only [release, List.map_cons] at hrest ⊢
    by_cases hb : b.ptr = p
    · -- The block itself: no later block has its pointer.
      have hnot : p ∉ livePtrs bs := by
        intro hp
        rcases mem_livePtrs.mp hp with ⟨c, hc, _, hcp⟩
        exact hn.1 (List.mem_map.mpr ⟨c, hc, by rw [hcp, hb]⟩)
      rw [if_pos hb, livePtrs_cons, if_pos rfl, hrest, livePtrs_cons,
        List.erase_of_not_mem hnot]
      by_cases hf : b.free = true
      · rw [if_pos hf, List.erase_of_not_mem hnot]
      · rw [if_neg hf, hb, List.erase_cons_head]
    · rw [if_neg hb, livePtrs_cons, livePtrs_cons, hrest]
      by_cases hf : b.free = true
      · rw [if_pos hf, if_pos hf]
      · rw [if_neg hf, if_neg hf, List.erase_cons_tail (by simpa using hb)]

theorem mapPages_le (phys : Nat → Nat) (i n : Nat) : mapPages phys i n ≤ n := by
  fun_induction mapPages phys i n with
  | case1 => exact le_refl _
  | case2 => exact Nat.zero_le _
  | case3 _ _ _ ih => exact Nat.succ_le_succ ih

theorem mapPages_all {phys : Nat → Nat} (h : ∀ i, phys i ≠ 0) (i n : Nat) :
    mapPages phys i n = n := by
  induction n generalizing i with
  | zero => rfl
  | succ k ih => rw [mapPages, if_neg (h i), ih]

theorem alignSize_mod (size : Nat) : alignSize size % 8 = 0 := by
  simp only [alignSize, Nat.mul_mod_left]

end Heap

/-- The abstract heap: its blocks and how many pages they fill. -/
structure Blocks where
  blocks : List Heap.Block
  pages : Nat

namespace Blocks

open Heap

/-- The heap top. -/
def top (a : Blocks) : Nat := HEAP_START + a.pages * VMM_PAGE_SIZE

/-- One free block covering `mapped` new pages, appended at the top. -/
def grown (mapped : Nat) (a : Blocks) : Blocks where
  blocks := a.blocks ++
    [{ addr := a.top, size := mapped * VMM_PAGE_SIZE - HEADER_SIZE, free := true }]
  pages := a.pages + mapped

/-- Grow by the pages the allocator hands out, up to the ceiling. -/
def expand (phys : Nat → Nat) (n : Nat) (a : Blocks) : Blocks × Bool :=
  if a.pages + n > HEAP_MAX_PAGES then (a, false)
  else if mapPages phys 0 n = 0 then (a, false)
  else (a.grown (mapPages phys 0 n), true)

/-- Allocate by first fit; the pointer is null if nothing fits. -/
def search (size : Nat) (a : Blocks) : Blocks × Nat :=
  match firstFit size a.blocks with
  | some (bs, p) => ({ a with blocks := bs }, p)
  | none => (a, 0)

/-- Allocate, growing once by up to `n` pages if nothing fits. -/
def allocAligned (phys : Nat → Nat) (size n : Nat) (a : Blocks) : Blocks × Nat :=
  if (a.search size).2 ≠ 0 then a.search size
  else if (a.expand phys n).2 = false then ((a.expand phys n).1, 0)
  else (a.expand phys n).1.search size

/-- Allocate a request of any size. -/
def alloc (phys : Nat → Nat) (size : Nat) (a : Blocks) : Blocks × Nat :=
  if size = 0 then (a, 0) else a.allocAligned phys (alignSize size) (needPages (alignSize size))

/-- Free a pointer and glue the list. -/
def free (p : Nat) (a : Blocks) : Blocks :=
  { a with blocks := glue (release p a.blocks) }

/-- The structural invariant: the blocks tile the heap, every size is a
    multiple of 8, and the heap stays under its ceiling. -/
structure Ok (a : Blocks) : Prop where
  tiles : Tiles HEAP_START a.blocks a.top
  aligned : ∀ b ∈ a.blocks, b.size % 8 = 0
  ceiling : a.pages ≤ HEAP_MAX_PAGES

theorem Ok.fills {a : Blocks} (h : a.Ok) : Fills HEAP_START a.blocks a.top :=
  ⟨h.tiles, h.aligned⟩

/-- What growing can do: nothing, or one free block at the old top. -/
theorem expand_cases (phys : Nat → Nat) (n : Nat) (a : Blocks) :
    a.expand phys n = (a, false) ∨
      ∃ mapped, 0 < mapped ∧ a.pages + mapped ≤ HEAP_MAX_PAGES ∧
        a.expand phys n = (a.grown mapped, true) := by
  unfold expand
  by_cases h1 : a.pages + n > HEAP_MAX_PAGES
  · rw [if_pos h1]; exact Or.inl rfl
  · rw [if_neg h1]
    by_cases h2 : mapPages phys 0 n = 0
    · rw [if_pos h2]; exact Or.inl rfl
    · rw [if_neg h2]
      have hle := mapPages_le phys 0 n
      exact Or.inr ⟨mapPages phys 0 n, by omega, by omega, rfl⟩

theorem expand_ok (phys : Nat → Nat) (n : Nat) (a : Blocks) (h : a.Ok) :
    (a.expand phys n).1.Ok := by
  rcases expand_cases phys n a with he | ⟨mapped, hpos, hle, he⟩
  · rw [he]; exact h
  · rw [he]
    have hnew : Fills HEAP_START (a.grown mapped).blocks (a.grown mapped).top := by
      refine fills_append.mpr ⟨a.top, h.fills, fills_cons.mpr ⟨rfl, ?_, ?_, List.forall_mem_nil _⟩⟩
      · simp only [VMM_PAGE_SIZE, HEADER_SIZE]
        omega
      · simp only [Tiles, Block.stop, grown, top, HEADER_SIZE, VMM_PAGE_SIZE]
        omega
    exact ⟨hnew.1, hnew.2, hle⟩

theorem expand_livePtrs (phys : Nat → Nat) (n : Nat) (a : Blocks) :
    livePtrs (a.expand phys n).1.blocks = livePtrs a.blocks := by
  rcases expand_cases phys n a with he | ⟨mapped, _, _, he⟩
  · rw [he]
  · rw [he]
    simp only [grown]
    rw [livePtrs_append]
    exact List.append_nil _

/-- What a search can do: fail and leave the heap, or take a first fit. -/
theorem search_cases (size : Nat) (a : Blocks) :
    a.search size = (a, 0) ∨ ∃ bs p, firstFit size a.blocks = some (bs, p) ∧ p ≠ 0 ∧
      a.search size = ({ a with blocks := bs }, p) := by
  unfold search
  cases hf : firstFit size a.blocks with
  | none => exact Or.inl rfl
  | some r =>
    refine Or.inr ⟨r.1, r.2, rfl, ?_, rfl⟩
    rcases firstFit_split hf with ⟨_, b, _, _, _, _, _, hp⟩
    rw [hp]
    simp only [Block.ptr, HEADER_SIZE]
    omega

theorem search_ok {size : Nat} {a : Blocks} (hs : size % 8 = 0) (h : a.Ok) :
    (a.search size).1.Ok := by
  rcases search_cases size a with he | ⟨bs, p, hf, _, he⟩
  · rw [he]; exact h
  · rw [he]
    have hfills := firstFit_fills hf hs h.fills
    exact ⟨hfills.1, hfills.2, h.ceiling⟩

/-- What an allocation can come from: nothing, the heap, or the heap that has
    grown, which may have been in vain. -/
theorem alloc_cases (phys : Nat → Nat) (size : Nat) (a : Blocks) :
    a.alloc phys size = (a, 0) ∨ a.alloc phys size = a.search (alignSize size) ∨
      ∃ n, a.alloc phys size = ((a.expand phys n).1, 0) ∨
        a.alloc phys size = (a.expand phys n).1.search (alignSize size) := by
  unfold alloc
  by_cases hz : size = 0
  · rw [if_pos hz]; exact Or.inl rfl
  rw [if_neg hz]
  generalize needPages (alignSize size) = n
  unfold allocAligned
  by_cases h1 : (a.search (alignSize size)).2 ≠ 0
  · rw [if_pos h1]; exact Or.inr (Or.inl rfl)
  rw [if_neg h1]
  by_cases h2 : (a.expand phys n).2 = false
  · rw [if_pos h2]; exact Or.inr (Or.inr ⟨n, Or.inl rfl⟩)
  · rw [if_neg h2]; exact Or.inr (Or.inr ⟨n, Or.inr rfl⟩)

theorem alloc_ok (phys : Nat → Nat) (size : Nat) (a : Blocks) (h : a.Ok) :
    (a.alloc phys size).1.Ok := by
  rcases alloc_cases phys size a with he | he | ⟨n, he | he⟩ <;> rw [he]
  · exact h
  · exact search_ok (alignSize_mod size) h
  · exact expand_ok phys n a h
  · exact search_ok (alignSize_mod size) (expand_ok phys n a h)

/-- The live pointers after an attempt that returned `p`: unchanged if it
    failed, and with `p` added if it did not. -/
def Granted (live : List Nat) (p : Nat) (live' : List Nat) : Prop :=
  (p = 0 ∧ live' = live) ∨ (p ≠ 0 ∧ live'.Perm (p :: live))

theorem search_granted (size : Nat) (a : Blocks) :
    Granted (livePtrs a.blocks) (a.search size).2 (livePtrs (a.search size).1.blocks) := by
  rcases search_cases size a with hs | ⟨bs, p, hf, hp, hs⟩
  · rw [hs]; exact Or.inl ⟨rfl, rfl⟩
  · rw [hs]; exact Or.inr ⟨hp, firstFit_livePtrs hf⟩

theorem alloc_granted (phys : Nat → Nat) (size : Nat) (a : Blocks) :
    Granted (livePtrs a.blocks) (a.alloc phys size).2 (livePtrs (a.alloc phys size).1.blocks) := by
  rcases alloc_cases phys size a with he | he | ⟨n, he | he⟩ <;> rw [he]
  · exact Or.inl ⟨rfl, rfl⟩
  · exact search_granted _ a
  · exact Or.inl ⟨rfl, expand_livePtrs phys n a⟩
  · rw [← expand_livePtrs phys n a]
    exact search_granted _ _

theorem free_ok (p : Nat) (a : Blocks) (h : a.Ok) : (a.free p).Ok := by
  have hfills := fills_glue (fills_release p h.fills)
  exact ⟨hfills.1, hfills.2, h.ceiling⟩

theorem free_livePtrs (p : Nat) (a : Blocks) (h : a.Ok) :
    livePtrs (a.free p).blocks = (livePtrs a.blocks).erase p := by
  simp only [free]
  rw [livePtrs_glue, livePtrs_release p (tiles_ptr_inj h.tiles)]

end Blocks

end SysRust
