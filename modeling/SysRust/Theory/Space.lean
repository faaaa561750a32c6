import SysRust.Core.Space
import SysRust.Lib.Machine
import SysRust.Theory.Heap.Blocks
import Mathlib.Data.List.Pairwise

/-!
# Ranges Handed Out

Which address ranges the heap, the program break, the mappings and a flat
binary have at the same time. Nothing in the kernel compares the frontiers,
so whether the ranges stay apart is up to the requests. `Fits` compares what
is asked for with the frontiers: everything but the mappings is to stay below
`MMAP_BASE`, and the heap, the break and the flat image below the next of
them. The mappings follow each other as long as `MMAP_NEXT` does not wrap; it
moves even if a mapping fails.

## Main definitions

* `Apart`: Two ranges have no address in common.
* `Session`, `sessions`: The frontiers, what has been granted, all runs.
* `Session.granted`: The ranges granted at the moment.
* `Fits`: A request is small enough for the frontiers, or grants nothing.

## Theorems

* `kmalloc_pages`: How far an allocation lets the heap grow.
* `sysBrk_cases`, `sysMmap_cases`: What the system calls do to the frontiers.
* `apart_reachable`: Requests that fit keep the granted ranges apart.
* `break_meets_heap`: Without care, the break moves over the heap.
-/

namespace SysRust.Space

open List Option

/-! ### The frontiers -/

variable {h : Heap} {pages size : Nat} {q r : Range} {phys : Nat → Nat}

theorem expandHeap_pages {r : Heap × Bool} (he : Heap.expandHeap phys pages h = some r) :
    r.1.pages = h.pages ∨
      h.pages + pages ≤ Heap.HEAP_MAX_PAGES ∧ r.1.pages ≤ h.pages + pages := by
  have hle := Heap.mapPages_le phys 0 pages
  unfold Heap.expandHeap at he
  by_cases hmax : h.pages + pages > Heap.HEAP_MAX_PAGES
  · rw [if_pos hmax, some.injEq] at he
    exact Or.inl (he ▸ rfl)
  · rw [if_neg hmax] at he
    refine Or.inr ⟨Nat.le_of_not_gt hmax, ?_⟩
    generalize Heap.mapPages phys 0 pages = mapped at he hle
    by_cases h0 : mapped = 0
    · rw [if_pos h0, some.injEq] at he
      exact he ▸ Nat.le_add_right _ _
    · rw [if_neg h0] at he
      by_cases hhead : h.head = 0
      · rw [if_pos hhead, some.injEq] at he
        exact he ▸ Nat.add_le_add_left hle _
      · rw [if_neg hhead] at he
        rcases map_eq_some_iff.mp he with ⟨last, _, hr⟩
        exact hr ▸ Nat.add_le_add_left hle _

theorem searchHeap_pages {r : Heap × Nat} (he : Heap.searchHeap size h = some r) :
    r.1.pages = h.pages := by
  rcases map_eq_some_iff.mp he with ⟨q, _, hr⟩
  rw [← hr]

/-- An allocation leaves the page count alone, or grows it by at most the
    pages it needs and below the ceiling. -/
theorem kmalloc_pages {r : Heap × Nat} (he : Heap.kmalloc phys size h = some r) :
    r.1.pages = h.pages ∨
      h.pages + Heap.needPages (Heap.alignSize size) ≤ Heap.HEAP_MAX_PAGES ∧
        r.1.pages ≤ h.pages + Heap.needPages (Heap.alignSize size) := by
  unfold Heap.kmalloc at he
  by_cases h0 : size = 0
  · rw [if_pos h0, some.injEq] at he
    exact Or.inl (he ▸ rfl)
  rw [if_neg h0] at he
  rcases bind_eq_some_iff.mp he with ⟨first, hfirst, hrest⟩
  have hp1 := searchHeap_pages hfirst
  by_cases hf : first.2 ≠ 0
  · rw [if_pos hf, some.injEq] at hrest
    exact Or.inl (hrest ▸ hp1)
  rw [if_neg hf] at hrest
  rcases bind_eq_some_iff.mp hrest with ⟨grown, hgrown, hlast⟩
  have hp2 := expandHeap_pages hgrown
  rw [hp1] at hp2
  by_cases hg : grown.2 = false
  · rw [if_pos hg, some.injEq] at hlast
    exact hlast ▸ hp2
  · rw [if_neg hg] at hlast
    rwa [searchHeap_pages hlast]

/-- The break stays, or moves up to the address and the call returns it. -/
theorem sysBrk_cases (addr : Nat) (supply : List Nat) (s : Brk.Break) :
    (Brk.sysBrk addr supply s).1.currentBrk = s.currentBrk ∨
      (Brk.sysBrk addr supply s).2.1 = addr ∧ (Brk.sysBrk addr supply s).1.currentBrk = addr := by
  unfold Brk.sysBrk
  dsimp only
  split_ifs with h0 hlt hhigh hok
  · exact Or.inl rfl
  · exact Or.inl rfl
  · exact Or.inr ⟨rfl, rfl⟩
  · exact Or.inl rfl
  · exact Or.inr ⟨rfl, rfl⟩

/-- Where `MMAP_NEXT` is after a mapping of `len` bytes. -/
def nextAfter (len next : Nat) : Nat := u64 (Brk.endPageOf next + mmapPages len * 0x1000)

/-- A mapping without `MAP_FIXED` that returns: it starts at the frontier, or
    there is none. The break stays where it is. -/
theorem sysMmap_cases {addr len flags : Nat} {supply : List Nat} {s : Brk.Regions}
    {r : Brk.Regions × Nat × List Nat} (hfix : addr = 0 ∨ flags &&& 0x10 = 0)
    (he : Brk.sysMmap addr len flags supply s = some r) : r.1.currentBrk = s.currentBrk ∧
      (len = 0 ∧ r.1.mmapNext = s.mmapNext ∧ r.2.1 = Brk.EINVAL ∨
        len ≠ 0 ∧ r.1.mmapNext = nextAfter len s.mmapNext ∧
          (r.2.1 = Brk.ENOMEM ∨ r.2.1 = Brk.endPageOf s.mmapNext)) := by
  have hnot : Brk.fixed addr flags = false :=
    decide_eq_false (fun hf => hfix.elim hf.1 hf.2)
  simp only [Brk.sysMmap, hnot, Bool.false_eq_true, if_false] at he
  split_ifs at he with h0 hdone
  · cases he
    exact ⟨rfl, Or.inl ⟨h0, rfl, rfl⟩⟩
  · rcases map_eq_some_iff.mp he with ⟨m, _, rfl⟩
    exact ⟨rfl, Or.inr ⟨h0, rfl, Or.inr rfl⟩⟩
  · cases he
    exact ⟨rfl, Or.inr ⟨h0, rfl, Or.inl rfl⟩⟩

/-- Without a wrap, a mapping starts at or above `MMAP_NEXT` and its end is
    the next one. -/
theorem nextAfter_eq {len next : Nat} (h : next + 0xFFF + mmapPages len * 0x1000 < 2 ^ 64) :
    next ≤ Brk.endPageOf next ∧
      nextAfter len next = Brk.endPageOf next + mmapPages len * 0x1000 := by
  unfold nextAfter Brk.endPageOf Brk.pageOf
  rw [u64_of_lt (by omega : next + 0xFFF < 2 ^ 64), u64_of_lt (by omega)]
  omega

/-- An address that was rounded to a page is no error code. -/
theorem endPageOf_not_error (a : Nat) :
    ¬ (Brk.endPageOf a = Brk.EINVAL ∨ Brk.endPageOf a = Brk.ENOMEM) := by
  have h1 : Brk.EINVAL = 2 ^ 64 - 22 := rfl
  have h2 : Brk.ENOMEM = 2 ^ 64 - 12 := rfl
  unfold Brk.endPageOf Brk.pageOf
  omega

/-! ### Ranges -/

/-- No address is in both ranges. -/
def Apart (r q : Range) : Prop := ∀ x, ¬ ((r.1 ≤ x ∧ x < r.2) ∧ q.1 ≤ x ∧ x < q.2)

theorem apart_symm (h : Apart r q) : Apart q r := fun x hx => h x ⟨hx.2, hx.1⟩

theorem apart_of_le (h : r.2 ≤ q.1) : Apart r q := fun x hx => by omega

theorem apart_empty (h : r.2 ≤ r.1) : Apart r q := fun x hx => by omega

/-! ### Sessions -/

/-- The frontiers with what has been granted: where the break of the running
    program started, the mappings, and the size of the flat image. -/
structure Session where
  space : Space
  initialBrk : Option Nat
  mmaps : List Range
  image : Option Nat

namespace Session

def brk (s : Session) : Nat := s.space.regions.currentBrk

/-- Where the break area starts. Without a program it is empty. -/
def brkStart (s : Session) : Nat := s.initialBrk.getD s.brk

def brkRange (s : Session) : Range := (s.brkStart, s.brk)

def imageRange (s : Session) : Range := flatRange (s.image.getD 0)

/-- The ranges granted at the moment. -/
def granted (s : Session) : List Range :=
  heapRange s.space.heap :: s.brkRange :: s.imageRange :: s.mmaps

end Session

/-- A program that is loaded has the break `brk`. -/
inductive Request where
  | kmalloc (phys : Nat → Nat) (size : Nat)
  | loadElf (brk : Nat)
  | brk (addr : Nat) (supply : List Nat)
  | mmap (addr len flags : Nat) (supply : List Nat)
  | runFlat (n : Nat)

/-- The break is moved by a program that has one, mappings are without
    `MAP_FIXED`, and `vfs::read` returned the `n` bytes of a flat binary as a
    positive `i32`. -/
def Allowed (s : Session) : Request → Prop
  | .kmalloc _ _ => True
  | .loadElf _ => True
  | .brk _ _ => s.initialBrk.isSome
  | .mmap addr _ flags _ => addr = 0 ∨ flags &&& 0x10 = 0
  | .runFlat n => 0 < n ∧ n < 2 ^ 31

/-- A mapping has returned. Its range is granted unless the call failed. -/
def Session.record (s : Session) (len : Nat) (r : Brk.Regions × Nat × List Nat) : Session :=
  { s with
    space := { s.space with regions := r.1 }
    mmaps := if r.2.1 = Brk.EINVAL ∨ r.2.1 = Brk.ENOMEM then s.mmaps
      else (r.2.1, r.2.1 + mmapPages len * 0x1000) :: s.mmaps }

/-- A mapping has faulted, with `MMAP_NEXT` moved. -/
def Session.abort (s : Session) (len : Nat) : Session :=
  let regions := s.space.regions
  { s with space := { s.space with
    regions := { regions with mmapNext := nextAfter len regions.mmapNext } } }

def serve (s : Session) : Request → Option Session
  | .kmalloc phys size => (Heap.kmalloc phys size s.space.heap).map (fun r =>
      { s with space := { s.space with heap := r.1 } })
  | .loadElf brk => some { s with space := setBrk brk s.space, initialBrk := some brk }
  | .brk addr supply => some
      { s with space := { s.space with
        regions := { s.space.regions with
          toBreak := (Brk.sysBrk addr supply s.space.regions.toBreak).1 } } }
  | .mmap addr len flags supply =>
    match Brk.sysMmap addr len flags supply s.space.regions with
    | none => some (s.abort len)
    | some r => some (s.record len r)
  | .runFlat n => some { s with image := some n }

/-- All runs from the boot of the kernel. -/
def sessions : Machine Session Request where
  start := fun s => s.initialBrk = none ∧ s.mmaps = [] ∧ s.image = none ∧ s.brk = 0 ∧
    s.space.regions.mmapNext = MMAP_BASE ∧ ∃ phys m, Heap.init phys m = some s.space.heap
  allows := Allowed
  exec := serve

/-- The request fits below the next frontier, or grants nothing. -/
def Fits (s : Session) : Request → Prop
  | .kmalloc phys size =>
    let top := heapTop (s.space.heap.pages + Heap.needPages (Heap.alignSize size))
    (∀ r, Heap.kmalloc phys size s.space.heap = some r → r.1.pages = s.space.heap.pages) ∨
      (s.image = none ∨ top ≤ FLAT_LOAD_BASE) ∧ (s.brk ≤ Heap.HEAP_START ∨ top ≤ s.brkStart)
  | .loadElf brk => brk ≤ MMAP_BASE
  | .brk addr supply =>
    (Brk.sysBrk addr supply s.space.regions.toBreak).2.1 ≠ addr ∨
      addr ≤ MMAP_BASE ∧
        (addr ≤ Heap.HEAP_START ∨ heapTop s.space.heap.pages ≤ s.brkStart) ∧
        (s.image = none ∨ addr ≤ FLAT_LOAD_BASE ∨ FLAT_LOAD_BASE + s.image.getD 0 ≤ s.brkStart)
  | .mmap _ len _ _ =>
    len = 0 ∨ s.space.regions.mmapNext + 0xFFF + mmapPages len * 0x1000 < 2 ^ 64
  | .runFlat n =>
    heapTop s.space.heap.pages ≤ FLAT_LOAD_BASE ∧ FLAT_LOAD_BASE + n ≤ MMAP_BASE ∧
      (s.brk ≤ FLAT_LOAD_BASE ∨ FLAT_LOAD_BASE + n ≤ s.brkStart)

/-- The invariant of runs that fit. -/
structure Inv (s : Session) : Prop where
  heap : s.space.heap.pages ≤ Heap.HEAP_MAX_PAGES
  brk : s.brk ≤ MMAP_BASE
  image : s.imageRange.2 ≤ MMAP_BASE
  next : MMAP_BASE ≤ s.space.regions.mmapNext
  mmaps : ∀ r ∈ s.mmaps, MMAP_BASE ≤ r.1 ∧ r.2 ≤ s.space.regions.mmapNext
  among : s.mmaps.Pairwise Apart
  heapBrk : Apart (heapRange s.space.heap) s.brkRange
  heapImage : Apart (heapRange s.space.heap) s.imageRange
  brkImage : Apart s.brkRange s.imageRange

variable {s : Session}

/-- Under the invariant all granted ranges are apart. -/
theorem granted_apart (h : Inv s) : s.granted.Pairwise Apart := by
  have htop : heapTop s.space.heap.pages ≤ MMAP_BASE := by
    have := h.heap
    simp only [heapTop, Heap.HEAP_START, Heap.VMM_PAGE_SIZE, Heap.HEAP_MAX_PAGES, MMAP_BASE] at *
    omega
  refine pairwise_cons.mpr ⟨fun r hr => ?_, pairwise_cons.mpr ⟨fun r hr => ?_,
    pairwise_cons.mpr ⟨fun r hr => ?_, h.among⟩⟩⟩
  · rcases mem_cons.mp hr with rfl | hr
    · exact h.heapBrk
    rcases mem_cons.mp hr with rfl | hr
    · exact h.heapImage
    · exact apart_of_le (le_trans htop (h.mmaps r hr).1)
  · rcases mem_cons.mp hr with rfl | hr
    · exact h.brkImage
    · exact apart_of_le (le_trans h.brk (h.mmaps r hr).1)
  · exact apart_of_le (le_trans h.image (h.mmaps r hr).1)

/-- A range that is empty is apart from the others. -/
theorem apart_image_none (h : s.image = none) : Apart q s.imageRange :=
  apart_symm (apart_empty (by rw [Session.imageRange, h]; exact Nat.le_refl _))

theorem init_pages {m : Mem} (hi : Heap.init phys m = some h) :
    h.pages ≤ Heap.HEAP_MAX_PAGES := by
  rcases map_eq_some_iff.mp hi with ⟨r, hr, rfl⟩
  rcases expandHeap_pages hr with h0 | ⟨hmax, hle⟩
  · exact h0 ▸ Nat.zero_le _
  · exact le_trans hle hmax

theorem inv_start (hs : sessions.start s) : Inv s := by
  rcases hs with ⟨hb, hm, hi, hbrk, hnext, phys, m, hheap⟩
  have hempty : s.brkRange.2 ≤ s.brkRange.1 := by
    simp only [Session.brkRange, Session.brkStart, hb, getD_none, le_refl]
  exact {
    heap := init_pages hheap
    brk := hbrk ▸ Nat.zero_le _
    image := by rw [Session.imageRange, hi]; decide
    next := Nat.le_of_eq hnext.symm
    mmaps := hm ▸ forall_mem_nil _
    among := hm ▸ List.Pairwise.nil
    heapBrk := apart_symm (apart_empty hempty)
    heapImage := apart_image_none hi
    brkImage := apart_image_none hi }

theorem inv_kmalloc (h : Inv s) {r : Heap × Nat} (hc : Fits s (.kmalloc phys size))
    (he : Heap.kmalloc phys size s.space.heap = some r) :
    Inv { s with space := { s.space with heap := r.1 } } := by
  have hsame (hp : r.1.pages = s.space.heap.pages) :
      Inv { s with space := { s.space with heap := r.1 } } := by
    have hrange : heapRange r.1 = heapRange s.space.heap := by rw [heapRange, heapRange, hp]
    refine { h with heap := hp ▸ h.heap, heapBrk := ?_, heapImage := ?_ }
    · show Apart (heapRange r.1) s.brkRange
      rw [hrange]
      exact h.heapBrk
    · show Apart (heapRange r.1) s.imageRange
      rw [hrange]
      exact h.heapImage
  rcases kmalloc_pages he with hp | ⟨hmax, hle⟩
  · exact hsame hp
  rcases hc with hp | ⟨himage, hbrk⟩
  · exact hsame (hp r he)
  have htop : heapTop r.1.pages ≤
      heapTop (s.space.heap.pages + Heap.needPages (Heap.alignSize size)) :=
    Nat.add_le_add_left (Nat.mul_le_mul_right _ hle) _
  refine { h with heap := le_trans hle hmax, heapBrk := ?_, heapImage := ?_ }
  · rcases hbrk with hbelow | habove
    · exact apart_symm (apart_of_le hbelow)
    · exact apart_of_le (le_trans htop habove)
  · rcases himage with hnone | habove
    · exact apart_image_none (s := { s with space := { s.space with heap := r.1 } }) hnone
    · exact apart_of_le (le_trans htop habove)

/-- Loading a program starts an empty break area. -/
theorem inv_loadElf (h : Inv s) {b : Nat} (hb : b ≤ MMAP_BASE) :
    Inv { s with space := setBrk b s.space, initialBrk := some b } :=
  { h with
    brk := hb
    heapBrk := apart_symm (apart_empty (Nat.le_refl _))
    brkImage := apart_empty (Nat.le_refl _) }

theorem inv_brk (h : Inv s) {addr : Nat} {supply : List Nat} {b : Brk.Break}
    (ha : Allowed s (.brk addr supply)) (hc : Fits s (.brk addr supply))
    (hb : (Brk.sysBrk addr supply s.space.regions.toBreak).1 = b) :
    Inv { s with space := { s.space with regions := { s.space.regions with toBreak := b } } } := by
  obtain ⟨start, hstart⟩ := isSome_iff_exists.mp ha
  have hrange : s.brkRange = (start, s.brk) := by
    rw [Session.brkRange, Session.brkStart, hstart, getD_some]
  have hnew : Session.brkRange
      { s with space := { s.space with regions := { s.space.regions with toBreak := b } } } =
        (start, b.currentBrk) := by
    rw [Session.brkRange, Session.brkStart, hstart, getD_some]
    rfl
  have hsame (hp : b.currentBrk = s.brk) :
      Inv { s with space := { s.space with regions := { s.space.regions with toBreak := b } } } :=
    { h with
      brk := le_of_eq_of_le hp h.brk
      heapBrk := by rw [hnew, hp, ← hrange]; exact h.heapBrk
      brkImage := by rw [hnew, hp, ← hrange]; exact h.brkImage }
  rcases sysBrk_cases addr supply s.space.regions.toBreak with hp | ⟨hret, hp⟩
  · exact hsame (hb ▸ hp)
  rcases hc with hne | ⟨hmax, hheap, himage⟩
  · exact absurd hret hne
  rw [hb] at hp
  rw [Session.brkStart, hstart, getD_some] at hheap himage
  refine { h with brk := le_of_eq_of_le hp hmax, heapBrk := ?_, brkImage := ?_ }
  · rw [hnew, hp]
    rcases hheap with hbelow | habove
    · exact apart_symm (apart_of_le hbelow)
    · exact apart_of_le habove
  · rw [hnew, hp]
    rcases himage with hnone | hbelow | habove
    · exact apart_image_none hnone
    · exact apart_of_le hbelow
    · exact apart_symm (apart_of_le habove)

/-- `MMAP_NEXT` moves up, with a new mapping below it or without. -/
theorem inv_next (h : Inv s) {regions : Brk.Regions} {ms : List Range}
    (hbrk : regions.currentBrk = s.brk) (hle : s.space.regions.mmapNext ≤ regions.mmapNext)
    (hms : ms = s.mmaps ∨ ∃ r, ms = r :: s.mmaps ∧ s.space.regions.mmapNext ≤ r.1 ∧
      r.2 = regions.mmapNext) :
    Inv { s with space := { s.space with regions := regions }, mmaps := ms } := by
  have hrange : Session.brkRange
      { s with space := { s.space with regions := regions }, mmaps := ms } = s.brkRange := by
    simp only [Session.brkRange, Session.brkStart, Session.brk] at hbrk ⊢
    rw [hbrk]
  have hold : ∀ r ∈ s.mmaps, MMAP_BASE ≤ r.1 ∧ r.2 ≤ regions.mmapNext :=
    fun r hr => ⟨(h.mmaps r hr).1, le_trans (h.mmaps r hr).2 hle⟩
  refine { h with
    brk := le_of_eq_of_le hbrk h.brk
    next := le_trans h.next hle
    mmaps := ?_
    among := ?_
    heapBrk := hrange ▸ h.heapBrk
    brkImage := hrange ▸ h.brkImage }
  · rcases hms with rfl | ⟨q, rfl, hq1, hq2⟩
    · exact hold
    · exact forall_mem_cons.mpr ⟨⟨le_trans h.next hq1, Nat.le_of_eq hq2⟩, hold⟩
  · rcases hms with rfl | ⟨q, rfl, hq1, -⟩
    · exact h.among
    · exact pairwise_cons.mpr
        ⟨fun r hr => apart_symm (apart_of_le (le_trans (h.mmaps r hr).2 hq1)), h.among⟩

theorem inv_mmap (h : Inv s) {addr len flags : Nat} {supply : List Nat} {t : Session}
    (ha : Allowed s (.mmap addr len flags supply)) (hc : Fits s (.mmap addr len flags supply))
    (he : serve s (.mmap addr len flags supply) = some t) : Inv t := by
  have hlen : len ≠ 0 → s.space.regions.mmapNext ≤ Brk.endPageOf s.space.regions.mmapNext ∧
      nextAfter len s.space.regions.mmapNext =
        Brk.endPageOf s.space.regions.mmapNext + mmapPages len * 0x1000 :=
    fun h0 => nextAfter_eq (hc.resolve_left h0)
  simp only [serve] at he
  cases hm : Brk.sysMmap addr len flags supply s.space.regions with
  | none =>
    -- With no length there is nothing to zero.
    have h0 : len ≠ 0 := by
      rintro rfl
      exact absurd hm (by simp only [Brk.sysMmap, if_true, reduceCtorEq, not_false_eq_true])
    rw [hm, some.injEq] at he
    exact he ▸ inv_next h rfl (by have := hlen h0; dsimp only; omega) (Or.inl rfl)
  | some r =>
    rw [hm, some.injEq] at he
    subst he
    rcases sysMmap_cases ha hm with ⟨hbrk, ⟨-, hnext, hret⟩ | ⟨h0, hnext, hret⟩⟩
    · exact inv_next h hbrk (Nat.le_of_eq hnext.symm) (Or.inl (if_pos (Or.inl hret)))
    · have hwrap := hlen h0
      refine inv_next h hbrk (by omega) ?_
      rcases hret with hret | hret
      · exact Or.inl (if_pos (Or.inr hret))
      · rw [hret, if_neg (endPageOf_not_error _)]
        exact Or.inr ⟨_, rfl, hwrap.1, (hnext.trans hwrap.2).symm⟩

theorem inv_runFlat (h : Inv s) {n : Nat} (hc : Fits s (.runFlat n)) :
    Inv { s with image := some n } := by
  rcases hc with ⟨hheap, hmax, hbrk⟩
  refine { h with image := hmax, heapImage := apart_of_le hheap, brkImage := ?_ }
  rcases hbrk with hbelow | habove
  · exact apart_of_le hbelow
  · exact apart_symm (apart_of_le habove)

theorem inv_step {t : Session} {o : Request} (h : Inv s) (ha : Allowed s o) (hc : Fits s o)
    (he : serve s o = some t) : Inv t := by
  cases o with
  | kmalloc phys size =>
    rcases map_eq_some_iff.mp he with ⟨r, hr, rfl⟩
    exact inv_kmalloc h hc hr
  | loadElf brk => exact some.inj he ▸ inv_loadElf h hc
  | brk addr supply => exact some.inj he ▸ inv_brk h ha hc rfl
  | mmap addr len flags supply => exact inv_mmap h ha hc he
  | runFlat n => exact some.inj he ▸ inv_runFlat h hc

/-- In every run of requests that fit the granted ranges are pairwise apart. -/
theorem apart_reachable {s : Session} (hs : (sessions.restrict Fits).Reachable s) :
    s.granted.Pairwise Apart := by
  refine granted_apart (Machine.Reachable.invariant (M := sessions.restrict Fits) Inv
    (fun s h => inv_start h) ?_ hs)
  rintro s t o h ⟨ha, hc⟩ he
  exact inv_step h ha hc he

/-! ### Two runs -/

/-- The kernel after boot. -/
def booted (h : Heap) : Session where
  space :=
    { heap := h
      regions := { mem := fun _ => 0, pml4 := 0, currentBrk := 0, mmapNext := MMAP_BASE } }
  initialBrk := none
  mmaps := []
  image := none

def onePage : Nat → Nat := fun i => if i = 0 then 0x100000 else 0

theorem booted_start : ∃ h : Heap, h.pages = 1 ∧ sessions.start (booted h) := by
  have hrun : (Heap.init onePage (fun _ => 0)).map Heap.pages = some 1 := by decide
  rcases map_eq_some_iff.mp hrun with ⟨h, hi, hp⟩
  exact ⟨h, hp, rfl, rfl, rfl, rfl, rfl, onePage, _, hi⟩

/-- A program has been loaded and has moved its break. -/
def moved (s : Session) (start addr : Nat) : Session :=
  { s with space := setBrk addr s.space, initialBrk := some start }

/-- A flat image behind the heap, and a program with its break behind that. -/
theorem apart_reachable_two : ∃ h : Heap, h.pages = 1 ∧
    (moved { booted h with image := some 4096 } 0xB00000 0xC00000).granted.Pairwise Apart := by
  obtain ⟨h, hp, hs⟩ := booted_start
  have hflat : (sessions.restrict Fits).Reachable { booted h with image := some 4096 } :=
    .step (booted h) _ (.runFlat 4096) (.start _ hs)
      ⟨⟨by decide, by decide⟩, show heapTop h.pages ≤ _ by rw [hp]; decide, by decide,
        Or.inl (Nat.zero_le _)⟩ rfl
  have hload : (sessions.restrict Fits).Reachable
      (moved { booted h with image := some 4096 } 0xB00000 0xB00000) :=
    .step _ _ (.loadElf 0xB00000) hflat ⟨trivial, show 0xB00000 ≤ MMAP_BASE by decide⟩ rfl
  have hbelow : heapTop h.pages ≤ 0xB00000 := by
    rw [hp]
    decide
  have himage : FLAT_LOAD_BASE + 4096 ≤ 0xB00000 := by decide
  exact ⟨h, hp, apart_reachable (.step _ _ (.brk 0xC00000 []) hload
    ⟨rfl, Or.inr ⟨by decide, Or.inr hbelow, Or.inr (Or.inr himage)⟩⟩ rfl)⟩

/-- A program with its segments below the heap moves its break over it. -/
theorem break_meets_heap :
    ∃ s, sessions.Reachable s ∧ s.brkRange = (0x401000, 0x600000) ∧
      ¬ s.granted.Pairwise Apart := by
  obtain ⟨h, hp, hs⟩ := booted_start
  have hload : sessions.Reachable (moved (booted h) 0x401000 0x401000) :=
    .step (booted h) _ (.loadElf 0x401000) (.start _ hs) trivial rfl
  refine ⟨moved (booted h) 0x401000 0x600000, .step _ _ (.brk 0x600000 []) hload rfl rfl, rfl, ?_⟩
  intro happart
  have htop : Heap.HEAP_START < heapTop h.pages := by
    rw [hp]
    decide
  have hin : 0x401000 ≤ Heap.HEAP_START ∧ Heap.HEAP_START < 0x600000 := by decide
  -- The first address of the heap is in both ranges.
  exact (pairwise_cons.mp happart).1 _ mem_cons_self Heap.HEAP_START ⟨⟨Nat.le_refl _, htop⟩, hin⟩

end SysRust.Space
