import SysRust.Theory.Heap.Refine

/-!
# Freed Memory Is Available Again

A buffer that is taken and given back can be taken again. The block that was
allocated is at least as large as the request, freeing it leaves a free
block that covers it, and first fit then finds that block or an earlier one.
Whether the page allocator still has pages does not matter the second time.

Drivers rely on this without saying so: each call takes one buffer and
returns it, and what one call could allocate the next one can.

## Main definitions

* `Fits`: Some free block is large enough.

## Theorems

* `fits_glue`: Gluing keeps large blocks.
* `firstFit_used`: The block first fit hands out.
* `Blocks.alloc_again`: An allocation succeeds after the same one was freed.
* `kmalloc_kfree`: A successful `kmalloc` and its `kfree` come back.
* `kmalloc_le`: What is granted is smaller than the heap.
* `kmalloc_again`: After them the same request succeeds.
-/

namespace SysRust.Heap

/-- Some free block has at least `size` bytes. -/
def Fits (size : Nat) (bs : List Block) : Prop := ∃ b ∈ bs, b.free = true ∧ size ≤ b.size

variable {bs bs' : List Block} {size p : Nat}

theorem firstFit_of_fits (h : Fits size bs) : ∃ r, firstFit size bs = some r := by
  rcases h with ⟨b, hb, hfree, hsize⟩
  fun_induction firstFit size bs with
  | case1 => exact absurd hb List.not_mem_nil
  | case2 => exact ⟨_, rfl⟩
  | case3 c cs hc ih =>
    rcases List.mem_cons.mp hb with rfl | hb
    · exact absurd ⟨hfree, hsize⟩ hc
    · rcases ih hb with ⟨r, hr⟩
      rw [hr]; exact ⟨_, rfl⟩

theorem fits_cons (b : Block) (bs : List Block) :
    Fits size (b :: bs) ↔ (b.free = true ∧ size ≤ b.size) ∨ Fits size bs := by
  simp only [Fits, List.mem_cons, or_and_right, exists_or, exists_eq_left]

/-- Merging two free blocks keeps what either of them could hold. -/
theorem fits_absorb {b : Block} (h : Fits size (b :: bs)) : Fits size (absorb b bs) := by
  cases bs with
  | nil => exact h
  | cons c cs =>
    rw [absorb]
    by_cases hf : b.free = true ∧ c.free = true
    · rw [if_pos hf, fits_cons]
      rw [fits_cons, fits_cons] at h
      have hb : b.size ≤ (b.join c).size := by simp only [Block.join]; omega
      have hc : c.size ≤ (b.join c).size := by simp only [Block.join]; omega
      rcases h with h | h | h
      · exact Or.inl ⟨rfl, Nat.le_trans h.2 hb⟩
      · exact Or.inl ⟨rfl, Nat.le_trans h.2 hc⟩
      · exact Or.inr h
    · rw [if_neg hf]; exact h

theorem fits_glue (h : Fits size bs) : Fits size (glue bs) := by
  induction bs with
  | nil => exact h
  | cons b bs ih =>
    refine fits_absorb ?_
    rw [fits_cons] at h ⊢
    exact h.imp_right ih

/-- Split or not, the block handed out keeps its address and is large
    enough. -/
theorem place_used {b : Block} (h : size ≤ b.size) :
    ∃ c ∈ place size b, c.ptr = b.ptr ∧ c.free = false ∧ size ≤ c.size := by
  unfold place
  by_cases hs : size + HEADER_SIZE + MIN_SPLIT ≤ b.size
  · rw [if_pos hs]; exact ⟨_, List.mem_cons_self, rfl, rfl, Nat.le_refl _⟩
  · rw [if_neg hs]; exact ⟨_, List.mem_cons_self, rfl, rfl, h⟩

/-- What first fit hands out is a block in use of at least the size asked
    for. -/
theorem firstFit_used (h : firstFit size bs = some (bs', p)) :
    ∃ b ∈ bs', b.ptr = p ∧ b.free = false ∧ size ≤ b.size := by
  rcases firstFit_split h with ⟨pre, b, post, _, rfl, _, hsize, rfl⟩
  rcases place_used hsize with ⟨c, hc, hused⟩
  exact ⟨c, List.mem_append_right _ (List.mem_append_left _ hc), hused⟩

/-- Once its pointer is released, that block is a free one. -/
theorem fits_release (h : firstFit size bs = some (bs', p)) : Fits size (release p bs') := by
  rcases firstFit_used h with ⟨b, hb, hptr, _, hle⟩
  exact ⟨{ b with free := true }, List.mem_map.mpr ⟨b, hb, if_pos hptr⟩, rfl, hle⟩

end Heap

namespace Blocks

open Heap

variable {a : Blocks} {phys : Nat → Nat} {size : Nat}

/-- A granted allocation is a first fit of the heap as it was or as it
    grew. -/
theorem alloc_firstFit (h : (a.alloc phys size).2 ≠ 0) :
    size ≠ 0 ∧ ∃ bs, firstFit (alignSize size) bs =
      some ((a.alloc phys size).1.blocks, (a.alloc phys size).2) := by
  have hsearch : ∀ c : Blocks, (c.search (alignSize size)).2 ≠ 0 →
      ∃ bs, firstFit (alignSize size) bs =
        some ((c.search (alignSize size)).1.blocks, (c.search (alignSize size)).2) := by
    intro c hc
    rcases search_cases (alignSize size) c with he | ⟨bs, p, hf, _, he⟩
    · rw [he] at hc; exact absurd rfl hc
    · rw [he]; exact ⟨_, hf⟩
  unfold alloc at h ⊢
  by_cases hz : size = 0
  · rw [if_pos hz] at h; exact absurd rfl h
  rw [if_neg hz] at h ⊢
  refine ⟨hz, ?_⟩
  unfold allocAligned at h ⊢
  by_cases h1 : (a.search (alignSize size)).2 ≠ 0
  · rw [if_pos h1]; exact hsearch a h1
  rw [if_neg h1] at h ⊢
  by_cases h2 : (a.expand phys (needPages (alignSize size))).2 = false
  · rw [if_pos h2] at h; exact absurd rfl h
  · rw [if_neg h2] at h ⊢; exact hsearch _ h

/-- An allocation succeeds after the same one was made and freed, whatever
    the page allocator answers. -/
theorem alloc_again (h : (a.alloc phys size).2 ≠ 0) (phys' : Nat → Nat) :
    ((((a.alloc phys size).1.free (a.alloc phys size).2).alloc phys' size).2) ≠ 0 := by
  rcases alloc_firstFit h with ⟨hz, bs, hf⟩
  have hfits := fits_glue (fits_release hf)
  rcases firstFit_of_fits hfits with ⟨r, hr⟩
  rcases search_cases (alignSize size)
    ((a.alloc phys size).1.free (a.alloc phys size).2) with he | ⟨_, p, _, hp, he⟩
  · simp only [search, free, hr, Prod.mk.injEq] at he
    rcases firstFit_split hr with ⟨_, b, _, _, _, _, _, hb⟩
    have hpos := he.2
    simp only [hb, Block.ptr, HEADER_SIZE] at hpos
    omega
  · rw [alloc, if_neg hz, allocAligned, he, if_pos hp]
    exact hp

/-- What is granted is smaller than the heap can get. -/
theorem alloc_le (hok : a.Ok) (h : (a.alloc phys size).2 ≠ 0) :
    alignSize size ≤ HEAP_MAX_PAGES * VMM_PAGE_SIZE := by
  rcases alloc_firstFit h with ⟨_, bs, hf⟩
  rcases firstFit_used hf with ⟨c, hmem, _, _, hsize⟩
  have hok' := alloc_ok phys size a hok
  have hb := tiles_bounds hok'.tiles c hmem
  have hceil := hok'.ceiling
  simp only [Block.stop, top, HEAP_START, HEAP_MAX_PAGES, VMM_PAGE_SIZE] at hb hceil ⊢
  omega

end Blocks

namespace Heap

variable {a : Blocks} {h : Heap} {phys : Nat → Nat} {size p : Nat}

/-- A request that the heap can serve is served, and its block can be given
    back. -/
theorem kmalloc_kfree (hr : HeapRep h a) (hp : (a.alloc phys size).2 ≠ 0) :
    ∃ h1 h2, kmalloc phys size h = some (h1, (a.alloc phys size).2) ∧
      kfree (a.alloc phys size).2 h1 = some h2 ∧
      HeapRep h2 ((a.alloc phys size).1.free (a.alloc phys size).2) := by
  rcases kmalloc_refines hr phys size with ⟨h1, hk, hr1⟩
  have hlive : (a.alloc phys size).2 ∈ livePtrs (a.alloc phys size).1.blocks := by
    rcases Blocks.alloc_granted phys size a with ⟨hz, _⟩ | ⟨_, hperm⟩
    · exact absurd hz hp
    · exact hperm.mem_iff.mpr List.mem_cons_self
  rcases kfree_refines hr1 hlive with ⟨h2, hf, hr2⟩
  exact ⟨h1, h2, hk, hf, hr2⟩

theorem kmalloc_le {h' : Heap} (hr : HeapRep h a) (hk : kmalloc phys size h = some (h', p))
    (hp : p ≠ 0) : alignSize size ≤ HEAP_MAX_PAGES * VMM_PAGE_SIZE := by
  rcases kmalloc_refines hr phys size with ⟨h1, hk1, _⟩
  rw [hk, Option.some.injEq, Prod.mk.injEq] at hk1
  exact Blocks.alloc_le hr.ok (hk1.2 ▸ hp)

/-- The heap can serve the request whatever the page allocator answers. -/
def Serves (h : Heap) (size : Nat) : Prop :=
  ∃ a, HeapRep h a ∧ ∀ phys, (a.alloc phys size).2 ≠ 0

/-- After a request was served and its block given back, the heap can serve
    it again. -/
theorem serves_again {h1 h2 : Heap} (hr : HeapRep h a) (hk : kmalloc phys size h = some (h1, p))
    (hp : p ≠ 0) (hf : kfree p h1 = some h2) : Serves h2 size := by
  rcases kmalloc_refines hr phys size with ⟨h1', hk', _⟩
  rw [hk, Option.some.injEq, Prod.mk.injEq] at hk'
  rw [hk'.2] at hp
  rcases kmalloc_kfree hr hp with ⟨g1, g2, hg, hfg, hrep⟩
  rw [hk, Option.some.injEq, Prod.mk.injEq] at hg
  rw [← hg.1, ← hg.2, hf, Option.some.injEq] at hfg
  rw [← hfg] at hrep
  exact ⟨_, hrep, Blocks.alloc_again hp⟩

/-- A heap that can serve the request does so and takes the block back. -/
theorem Serves.kmalloc (hs : Serves h size) (phys : Nat → Nat) :
    ∃ h1 p h2, Heap.kmalloc phys size h = some (h1, p) ∧ p ≠ 0 ∧ kfree p h1 = some h2 := by
  rcases hs with ⟨a, hr, ha⟩
  rcases kmalloc_kfree hr (ha phys) with ⟨h1, h2, hk, hf, _⟩
  exact ⟨h1, _, h2, hk, ha phys, hf⟩

end SysRust.Heap
