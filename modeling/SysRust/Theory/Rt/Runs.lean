import Mathlib.Data.List.Induction
import Mathlib.Data.List.Pairwise
import SysRust.Lib.Machine
import SysRust.Theory.Rt.Refine

/-!
# Runs of the User Allocator

What a program can rely on that allocates with `BrkAllocator`. A session is
the allocator with the pointers the program holds; it makes any allocations,
frees what it holds, and the kernel grants or refuses every request for
memory.

`Good` is the contract: what the program holds is aligned, in the heap,
disjoint from each other and from the headers. The allocator does not always
keep it. When no block fits, `heap_grow` asks for the size and a header,
rounded up to pages, but not for the padding that the alignment needs behind
the header. If the padding does not fit into what the rounding happens to
add, `alloc` hands out memory beyond the end of the heap, and `split_block`,
whose subtraction wraps around, writes a header there. `Covered` says that
this is not the case, and it decides the contract for whole runs.

## Main definitions

* `Session`, `Call`, `heaps`: Programs and their calls.
* `Kernel`: What `sys::brk` may answer.
* `Linked`: The headers on the list.
* `Good`: The contract.
* `Covered`: The growth leaves room for the padding.
* `Shape`, `Owned`: The heap is a block list, and every pointer has its own
  used block.

## Theorems

* `allocIn_eq`, `chosen_block`, `dealloc_shape`: What a call does to the block
  list.
* `good_of_owned`: A block list with owners keeps the contract.
* `step_covered`: One call.
* `good_iff_covered`: A run keeps the contract exactly if all its
  allocations are covered.
-/

namespace SysRust.BrkAllocator

open Function List

/-! ### Programs -/

/-- A pointer that was handed out, and for which request. -/
structure Grant where
  ptr : Nat
  layout : Layout

/-- The allocator and what the program holds. -/
structure Session where
  heap : BrkAllocator
  live : List Grant

/-- A call of the program, with the kernel's answers to `sys::brk`. -/
inductive Call where
  | alloc (layout : Layout) (brk : Nat → Nat)
  | dealloc (ptr : Nat)

/-- The break is an address of the program, and a request for another one is
    granted or answered with a smaller value. -/
structure Kernel (brk : Nat → Nat) : Prop where
  current : brk 0 ≤ USER_END
  answer : ∀ a, a ≠ 0 → brk a < a ∨ (brk a = a ∧ a ≤ USER_END)

/-- A program frees what it holds. -/
def Allowed (s : Session) : Call → Prop
  | .alloc _ brk => Kernel brk
  | .dealloc ptr => ∃ g ∈ s.live, g.ptr = ptr

/-- The pointer returned is held from then on, unless it is null. -/
def hold (live : List Grant) (layout : Layout) (r : BrkAllocator × Nat) : Session :=
  { heap := r.1, live := if r.2 = 0 then live else ⟨r.2, layout⟩ :: live }

def serve (s : Session) : Call → Option Session
  | .alloc layout brk => (s.heap.alloc brk layout).map (hold s.live layout)
  | .dealloc ptr => (s.heap.dealloc ptr).map (fun h =>
    { heap := h, live := s.live.filter (fun g => g.ptr != ptr) })

/-- Programs start without a heap, whatever is in memory. -/
def heaps : Machine Session Call where
  start := fun s => ∃ headers, s = { heap := new headers, live := [] }
  allows := Allowed
  exec := serve

noncomputable instance (s : Session) (c : Call) : Decidable (heaps.allows s c) :=
  Classical.propDecidable _

/-! ### The contract -/

/-- The headers that the list from `HEAD` on passes. -/
inductive Linked (t : BrkAllocator) : Nat → Prop
  | head : t.head ≠ 0 → Linked t t.head
  | next (a : Nat) : Linked t a → (t.headers a).next ≠ 0 → Linked t (t.headers a).next

/-- Two grants do not overlap. -/
def Grant.Apart (g g' : Grant) : Prop :=
  g.ptr + g.layout.size ≤ g'.ptr ∨ g'.ptr + g'.layout.size ≤ g.ptr

/-- What the program holds is aligned, in the heap, and disjoint from each
    other and from every header. -/
structure Good (s : Session) : Prop where
  aligned : ∀ g ∈ s.live, g.ptr % g.layout.align = 0
  inside : ∀ g ∈ s.live, s.heap.head ≤ g.ptr ∧ g.ptr < s.heap.heapEnd ∧
    g.ptr + g.layout.size ≤ s.heap.heapEnd
  apart : s.live.Pairwise Grant.Apart
  headers : ∀ g ∈ s.live, ∀ a, Linked s.heap a →
    g.ptr + g.layout.size ≤ a ∨ a + HEADER_SIZE ≤ g.ptr

/-- A free block has room for the request and its padding. -/
def Fits (t : BrkAllocator) (size align : Nat) : Prop :=
  ∃ a, Linked t a ∧ (t.headers a).isFree = true ∧
    alignedStart a align + size ≤ a + HEADER_SIZE + (t.headers a).size

/-- How much `heap_grow` asks for. -/
def growth (size : Nat) : Nat := alignUp (size + HEADER_SIZE) PAGE_SIZE

/-- If the heap has to grow for the request, and the kernel grants it, then
    the last block with what is added, or the new block if the last one is in
    use, has room for the request and its padding. -/
def CoveredIn (t : BrkAllocator) (size align : Nat) (brk : Nat → Nat) : Prop :=
  t.head ≠ 0 → ¬ Fits t size align →
    t.heapEnd + growth size ≤ brk (t.heapEnd + growth size) →
    ∀ a, Linked t a → (t.headers a).next = 0 →
      alignedStart (if (t.headers a).isFree = true then a else t.heapEnd) align + size ≤
        t.heapEnd + growth size

/-- The block that a request is taken out of, `0` if there is no memory. -/
def chosen (brk : Nat → Nat) (size align : Nat) (t : BrkAllocator) : Option (BrkAllocator × Nat) :=
  if t.head = 0 then some (t, 0)
  else
    (findFreeBlock t.headers size align (walkBound t) t.head).bind (fun block =>
      if block ≠ 0 then some (t, block) else heapGrow brk size t)

def taken (size align : Nat) (r : BrkAllocator × Nat) : BrkAllocator × Nat :=
  if r.2 = 0 then r else takeBlock size align r.1 r.2

theorem allocIn_eq (brk : Nat → Nat) (size align : Nat) (t : BrkAllocator) :
    allocIn brk size align t =
      (chosen brk size align (ready brk t)).map (taken size align) := by
  rw [allocIn, chosen]
  by_cases h0 : (ready brk t).head = 0
  · rw [if_pos h0, if_pos h0]
    rfl
  · rw [if_neg h0, if_neg h0, Option.map_bind]
    refine congrArg _ (funext (fun block => ?_))
    rw [comp_apply]
    by_cases hb : block ≠ 0
    · rw [if_pos hb, if_pos hb, Option.map_some, taken, if_neg hb]
    · rw [if_neg hb, if_neg hb]
      rfl

def Covered (s : Session) : Call → Prop
  | .alloc layout brk =>
    CoveredIn (ready brk s.heap) (max layout.size MIN_USABLE) (max layout.align HEADER_ALIGN) brk
  | .dealloc _ => True

/-! ### The heap as a block list -/

/-- The headers are those of blocks that tile the heap. -/
structure Shape (t : BrkAllocator) (bs : List Block) : Prop where
  listed : Listed t.headers t.head bs 0
  tiles : Tiles t.head bs t.heapEnd
  start : t.head ≠ 0
  page : t.heapEnd % PAGE_SIZE = 0
  top : t.heapEnd ≤ USER_END

namespace Shape

variable {t : BrkAllocator} {bs : List Block}

theorem length_lt (h : Shape t bs) : bs.length < walkBound t := by
  have hlen := Tiling.tiles_length Block.header_le h.tiles
  simp only [HEADER_SIZE, walkBound] at *
  omega

theorem addr_le (h : Shape t bs) : ∀ b ∈ bs, b.addr ≤ USER_END := by
  intro b hb
  have hstop := (Tiling.tiles_bounds Block.header_le h.tiles b hb).2
  have hle := b.header_le
  have htop := h.top
  omega

/-- There is a last block. -/
theorem eq_concat (h : Shape t bs) : ∃ pre l, bs = pre ++ [l] := by
  rcases eq_nil_or_concat bs with hnil | ⟨pre, l, hbs⟩
  · exact absurd ((listed_null h.listed).mpr hnil) h.start
  · exact ⟨pre, l, by rw [hbs, concat_eq_append]⟩

/-- The headers on the list are those of the blocks. -/
theorem linked_iff (h : Shape t bs) {a : Nat} : Linked t a ↔ ∃ b ∈ bs, b.addr = a := by
  constructor
  · intro hlink
    induction hlink with
    | head h0 =>
      cases bs with
      | nil => exact absurd h.listed h0
      | cons b bs => exact ⟨b, mem_cons_self, h.listed.1.symm⟩
    | next a _ h0 ih =>
      obtain ⟨b, hb, rfl⟩ := ih
      obtain ⟨pre, post, rfl⟩ := append_of_mem hb
      have hrest := (listed_middle.mp h.listed).2.2.2.2
      cases post with
      | nil => exact absurd hrest h0
      | cons c post => exact ⟨c, by simp, hrest.1.symm⟩
  · rintro ⟨b, hb, rfl⟩
    obtain ⟨pre, post, rfl⟩ := append_of_mem hb
    have hlisted := h.listed
    clear hb h
    -- Along the blocks before it, from the last one of them.
    induction pre using List.reverseRecOn generalizing b post with
    | nil => exact hlisted.1 ▸ Linked.head hlisted.2.1
    | append_singleton pre c ih =>
      rw [append_assoc, singleton_append] at hlisted
      obtain ⟨hnext, h0, _⟩ := (listed_middle.mp hlisted).2.2.2.2
      exact hnext ▸ Linked.next c.addr (ih c (b :: post) hlisted) h0

/-- The header of a block. -/
theorem header (h : Shape t bs) {b : Block} (hb : b ∈ bs) :
    (t.headers b.addr).size = b.size ∧ (t.headers b.addr).isFree = b.free := by
  obtain ⟨pre, post, rfl⟩ := append_of_mem hb
  obtain ⟨_, _, hsize, hfree, _⟩ := listed_middle.mp h.listed
  exact ⟨hsize, hfree⟩

/-- Fitting is a question about the blocks. -/
theorem fits_iff (h : Shape t bs) {size align : Nat} :
    Fits t size align ↔ ∃ b ∈ bs, b.free = true ∧ Room size align b := by
  constructor
  · rintro ⟨a, hlink, hfree, hroom⟩
    obtain ⟨b, hb, rfl⟩ := h.linked_iff.mp hlink
    rw [(h.header hb).2] at hfree
    rw [(h.header hb).1] at hroom
    exact ⟨b, hb, hfree, hroom⟩
  · rintro ⟨b, hb, hfree, hroom⟩
    refine ⟨b.addr, h.linked_iff.mpr ⟨b, hb, rfl⟩, ?_, ?_⟩
    · rw [(h.header hb).2, hfree]
    · rw [(h.header hb).1]
      exact hroom

end Shape

variable {pre bs post : List Block} {t : BrkAllocator} {brk : Nat → Nat} {b : Block}

/-- The last block is the one without a successor. -/
theorem Shape.last_iff {l : Block} (h : Shape t (pre ++ [l])) {a : Nat} :
    Linked t a ∧ (t.headers a).next = 0 ↔ a = l.addr := by
  have hlast := (listed_middle.mp h.listed).2.2.2.2
  constructor
  · rintro ⟨hlink, hnext⟩
    obtain ⟨b, hb, rfl⟩ := h.linked_iff.mp hlink
    rcases mem_append.mp hb with hin | hin
    · obtain ⟨xs, ys, rfl⟩ := append_of_mem hin
      have hlisted := h.listed
      rw [append_assoc, cons_append] at hlisted
      have hrest := (listed_middle.mp hlisted).2.2.2.2
      exact absurd ((listed_null hrest).mp hnext) (by simp)
    · rw [mem_singleton.mp hin]
  · rintro rfl
    exact ⟨h.linked_iff.mpr ⟨l, by simp, rfl⟩, hlast⟩

/-! ### Allocating -/

section Allocating

variable {l : Block} {size align : Nat}

/-- Taking a request out of a block with room. -/
theorem takeBlock_shape (h : Shape t (pre ++ b :: post)) (hr : Request size align)
    (hroom : Room size align b) :
    Shape (takeBlock size align t b.addr).1
      (pre ++ (carve (needed b.addr size align) b ++ post)) where
  listed := splitBlock_listed h.listed h.tiles h.top
    ((room_iff hr (h.addr_le b (by simp))).mpr hroom)
  tiles := tiles_replace h.tiles (tiles_carve _ b)
  start := h.start
  page := h.page
  top := h.top

theorem growth_spec (hr : Request size align) :
    size + HEADER_SIZE ≤ growth size ∧ growth size < size + HEADER_SIZE + PAGE_SIZE ∧
      growth size % PAGE_SIZE = 0 := by
  have hfits := hr.fits
  have hle : size + HEADER_SIZE + PAGE_SIZE ≤ 2 ^ 64 := by
    simp only [HEADER_SIZE, PAGE_SIZE]
    omega
  exact alignUp_spec (by decide) hle

theorem header_le_growth (hr : Request size align) : HEADER_SIZE ≤ growth size :=
  Nat.le_trans (Nat.le_add_left _ _) (growth_spec hr).1

/-- Growing the heap, for the memory that is granted. -/
theorem heapGrow_spec (h : Shape t (pre ++ [l])) (hr : Request size align) (hk : Kernel brk) :
    (brk (t.heapEnd + growth size) < t.heapEnd + growth size ∧
      heapGrow brk size t = some (t, 0)) ∨
    (t.heapEnd + growth size ≤ brk (t.heapEnd + growth size) ∧
      ∃ h', heapGrow brk size t =
          some ({ t with headers := h', heapEnd := t.heapEnd + growth size },
            (extend pre l (growth size)).2.addr) ∧
        Shape { t with headers := h', heapEnd := t.heapEnd + growth size }
          ((extend pre l (growth size)).1 ++ [(extend pre l (growth size)).2])) := by
  obtain ⟨hlo, hhi, hpage⟩ := growth_spec hr
  have hfits := hr.fits
  have hmin := hr.min_align
  have htop := h.top
  simp only [HEADER_ALIGN, HEADER_SIZE, PAGE_SIZE, USER_END] at hmin hlo hhi htop
  have hsize : u64 (size + HEADER_SIZE) = size + HEADER_SIZE := u64_of_lt (by
    simp only [HEADER_SIZE]
    omega)
  have hend : u64 (t.heapEnd + growth size) = t.heapEnd + growth size := u64_of_lt (by omega)
  have hsub : wrappingSub64 (growth size) HEADER_SIZE = growth size - HEADER_SIZE :=
    wrappingSub64_of_le (header_le_growth hr) (by omega)
  have htotal : alignUp (size + HEADER_SIZE) PAGE_SIZE = growth size := rfl
  by_cases hrefuse : brk (t.heapEnd + growth size) < t.heapEnd + growth size
  · refine Or.inl ⟨hrefuse, ?_⟩
    simp only [heapGrow, hsize, htotal, hend]
    rw [if_pos hrefuse]
  · refine Or.inr ⟨Nat.le_of_not_lt hrefuse, ?_⟩
    have hgrant : t.heapEnd + growth size ≤ USER_END := by
      rcases hk.answer (t.heapEnd + growth size) (by omega) with hless | ⟨_, hle⟩
      · exact absurd hless hrefuse
      · exact hle
    let x : BlockHeader := ⟨growth size - HEADER_SIZE, true, 0⟩
    -- The header of the new block is behind all blocks.
    have hlisted : Listed (Function.update t.headers t.heapEnd x) t.head (pre ++ [l]) 0 := by
      refine listed_congr (fun c hc => update_of_ne ?_ x t.headers) h.listed
      have hstop := (Tiling.tiles_bounds Block.header_le h.tiles c hc).2
      have hle := c.header_le
      simp only [HEADER_SIZE] at hle
      omega
    have hlast : lastBlock (Function.update t.headers t.heapEnd x)
        (walkBound { t with heapEnd := t.heapEnd + growth size }) t.head = some l.addr := by
      refine lastBlock_spec hlisted ?_
      have hlen := h.length_lt
      simp only [length_append, length_singleton, walkBound, HEADER_SIZE] at hlen ⊢
      omega
    obtain ⟨hblock, hafter⟩ := appendBlock_listed hlisted h.tiles hgrant (header_le_growth hr)
      (update_self ..)
    refine ⟨_, ?_, ⟨hafter, ?_, h.start, ?_, hgrant⟩⟩
    · simp only [heapGrow, hsize, htotal, hend, hsub]
      rw [if_neg hrefuse, if_neg h.start, hlast, Option.map_some, hblock]
    · exact tiles_extend (header_le_growth hr) h.tiles
    · have hp := h.page
      simp only [PAGE_SIZE] at hp hpage ⊢
      omega

/-- The blocks after the heap has been grown, if it has. -/
inductive Grown (bs : List Block) : List Block → Prop
  | same : Grown bs bs
  | more (pre : List Block) (l : Block) (total : Nat) : bs = pre ++ [l] → HEADER_SIZE ≤ total →
      Grown bs ((extend pre l total).1 ++ [(extend pre l total).2])

theorem Grown.used_eq {bs' : List Block} (h : Grown bs bs') : used bs' = used bs := by
  cases h with
  | same => rfl
  | more pre l total hbs _ =>
    rw [hbs]
    exact used_extend

/-- If the heap is grown, the condition speaks of the block that it is grown by. -/
theorem coveredIn_iff (h : Shape t (pre ++ [l])) (hr : Request size align)
    (hfits : ¬ Fits t size align)
    (hgrant : t.heapEnd + growth size ≤ brk (t.heapEnd + growth size)) :
    CoveredIn t size align brk ↔
      alignedStart (extend pre l (growth size)).2.addr align + size ≤ t.heapEnd + growth size := by
  have hstop : l.stop = t.heapEnd := (tiles_middle h.tiles).2
  rw [(extend_last pre l (header_le_growth hr)).2.1, hstop,
    ← (h.header (show l ∈ pre ++ [l] by simp)).2]
  constructor
  · intro hc
    obtain ⟨hlink, hnext⟩ := h.last_iff.mpr (rfl : l.addr = l.addr)
    exact hc h.start hfits hgrant l.addr hlink hnext
  · intro hroom _ _ _ a hlink hnext
    rw [h.last_iff.mp ⟨hlink, hnext⟩]
    exact hroom

/-- The block that is chosen is free, and it has room exactly if the request
    is covered. Otherwise it is the one that the heap has been grown by. -/
theorem chosen_block (h : Shape t bs) (hr : Request size align) (hk : Kernel brk) :
    (CoveredIn t size align brk ∧ chosen brk size align t = some (t, 0)) ∨
    ∃ t' pre b post, chosen brk size align t = some (t', b.addr) ∧ t'.locked = t.locked ∧
      Shape t' (pre ++ b :: post) ∧ Grown bs (pre ++ b :: post) ∧ b.free = true ∧
      ((CoveredIn t size align brk ∧ Room size align b) ∨
        (¬ CoveredIn t size align brk ∧ ¬ Room size align b ∧ post = [] ∧
          b.addr + growth size ≤ t'.heapEnd)) := by
  rw [chosen, if_neg h.start]
  rcases findFreeBlock_spec hr h.listed h.addr_le h.length_lt with
    ⟨pre, b, post, rfl, hfree, hroom, hfind⟩ | ⟨hnone, hfind⟩
  · rw [hfind, Option.bind_some, if_pos (listed_middle.mp h.listed).2.1]
    refine Or.inr ⟨t, pre, b, post, rfl, rfl, h, Grown.same, hfree,
      Or.inl ⟨fun _ hno => absurd ?_ hno, hroom⟩⟩
    exact h.fits_iff.mpr ⟨b, by simp, hfree, hroom⟩
  · have hfits : ¬ Fits t size align := by
      rw [h.fits_iff]
      rintro ⟨b, hb, hfree, hroom⟩
      exact hnone b hb hfree hroom
    rw [hfind, Option.bind_some, if_neg (not_not.mpr rfl)]
    obtain ⟨pre, e, rfl⟩ := h.eq_concat
    rcases heapGrow_spec h hr hk with ⟨hrefuse, hgrow⟩ | ⟨hgrant, h', hgrow, hshape⟩
    · exact Or.inl ⟨fun _ _ hyes => absurd hyes (Nat.not_le_of_lt hrefuse), hgrow⟩
    obtain ⟨hefree, headdr, _⟩ := extend_last pre e (header_le_growth hr)
    have hestop : e.stop = t.heapEnd := (tiles_middle h.tiles).2
    have hlast : (extend pre e (growth size)).2.stop = t.heapEnd + growth size :=
      (tiles_middle hshape.tiles).2
    have hle : (extend pre e (growth size)).2.addr ≤ t.heapEnd := by
      rw [headdr]
      by_cases hef : e.free = true
      · rw [if_pos hef, ← hestop]
        exact Nat.le_trans (Nat.le_add_right _ _) e.header_le
      · rw [if_neg hef]
        exact Nat.le_of_eq hestop
    refine Or.inr ⟨_, _, _, [], hgrow, rfl, hshape,
      Grown.more pre e _ rfl (header_le_growth hr), hefree, ?_⟩
    rw [coveredIn_iff h hr hfits hgrant, Room, hlast]
    by_cases hroom : alignedStart (extend pre e (growth size)).2.addr align + size ≤
        t.heapEnd + growth size
    · exact Or.inl ⟨hroom, hroom⟩
    · exact Or.inr ⟨hroom, hroom, rfl, Nat.add_le_add_right hle _⟩

/-- What the program holds then. -/
theorem hold_taken {live : List Grant} {l : Layout} (h : Shape t (pre ++ b :: post))
    (hr : Request size align) : hold live l (taken size align (t, b.addr)) =
      { heap := (takeBlock size align t b.addr).1,
        live := ⟨alignedStart b.addr align, l⟩ :: live } := by
  have hlo := (alignedStart_spec hr (h.addr_le b (by simp))).1
  have hptr : alignedStart b.addr align ≠ 0 := by
    simp only [HEADER_SIZE] at hlo
    omega
  rw [taken, if_neg (listed_middle.mp h.listed).2.1, hold, takeBlock, if_neg hptr]

end Allocating

/-- The heap that is searched: there is none, or it is a block list. A heap
    that was just started is one free block. -/
theorem ready_cases (hk : Kernel brk) (h0 : t.head = 0) :
    (ready brk t).locked = t.locked ∧
      ((ready brk t).head = 0 ∨
        ∃ b, b.free = true ∧ b.addr % PAGE_SIZE = 0 ∧ Shape (ready brk t) [b]) := by
  have hcur := hk.current
  simp only [USER_END] at hcur
  have hu : u64 (brk 0 + 0xFFF) = brk 0 + 0xFFF := u64_of_lt (by omega)
  have hsize : alignUp 65536 PAGE_SIZE = 65536 := by decide
  have hend : u64 ((brk 0 + 0xFFF) / 0x1000 * 0x1000 + 65536) =
      (brk 0 + 0xFFF) / 0x1000 * 0x1000 + 65536 := u64_of_lt (by omega)
  have hsub : wrappingSub64 65536 HEADER_SIZE = 65512 := by decide
  rw [ready, if_pos h0]
  simp only [heapInit, hu, hsize, hend, hsub]
  -- The start of the heap is a page, which may be the first.
  generalize hs : (brk 0 + 0xFFF) / 0x1000 * 0x1000 = start at *
  by_cases hrefuse : brk (start + 65536) < start + 65536
  · rw [if_pos hrefuse]
    exact ⟨rfl, Or.inl h0⟩
  · rw [if_neg hrefuse]
    refine ⟨rfl, ?_⟩
    by_cases hz : start = 0
    · exact Or.inl hz
    · have hgrant : start + 65536 ≤ USER_END := by
        rcases hk.answer (start + 65536) (by omega) with hless | ⟨_, hle⟩
        · exact absurd hless hrefuse
        · exact hle
      have hstop : Block.stop ⟨start, 65512, true⟩ = start + 65536 := by
        exact Nat.add_assoc start 24 65512
      have hlisted : Listed (Function.update t.headers start ⟨65512, true, 0⟩) start
          ([] ++ [⟨start, 65512, true⟩]) 0 :=
        listed_write (x := ⟨65512, true, 0⟩) rfl hz rfl (forall_mem_nil _)
          (forall_mem_nil _)
      refine Or.inr ⟨⟨start, 65512, true⟩, rfl, ?_, hlisted, ⟨rfl, hstop⟩, hz, ?_, hgrant⟩
      · simp only [PAGE_SIZE]
        omega
      · simp only [PAGE_SIZE]
        omega

/-! ### Owners -/

/-- The block contains the grant, with at least `MIN_USABLE` bytes. -/
def Owns (b : Block) (g : Grant) : Prop :=
  b.addr + HEADER_SIZE ≤ g.ptr ∧ g.ptr + max g.layout.size MIN_USABLE ≤ b.stop

/-- Every grant is aligned and has a used block of its own. -/
structure Owned (live : List Grant) (bs : List Block) : Prop where
  aligned : ∀ g ∈ live, g.ptr % g.layout.align = 0
  owner : ∀ g ∈ live, ∃ b ∈ used bs, Owns b g
  single : live.Pairwise (fun g g' => ∀ b ∈ used bs, Owns b g → ¬ Owns b g')

/-- No two blocks contain the same grant. -/
theorem owns_unique {lo hi : Nat} (ht : Tiles lo bs hi) {c : Block} (hb : b ∈ bs) (hc : c ∈ bs)
    {g : Grant} (hbg : Owns b g) (hcg : Owns c g) : b = c := by
  rcases Tiling.tiles_apart Block.header_le ht hb hc with heq | happ
  · exact heq
  · obtain ⟨h1, h2⟩ := hbg
    obtain ⟨h3, h4⟩ := hcg
    simp only [MIN_USABLE, HEADER_SIZE] at *
    omega

variable {live : List Grant} {s : Session}

/-- Owners are used blocks, so only these matter. -/
theorem Owned.congr {bs' : List Block} (h : Owned live bs) (heq : used bs' = used bs) :
    Owned live bs' where
  aligned := h.aligned
  owner := by
    rw [heq]
    exact h.owner
  single := by
    rw [heq]
    exact h.single

/-- A block list with owners keeps the contract. -/
theorem good_of_owned (h : Shape s.heap bs) (ho : Owned s.live bs) : Good s where
  aligned := ho.aligned
  inside := by
    intro g hg
    obtain ⟨b, hb, h1, h2⟩ := ho.owner g hg
    obtain ⟨hlo, hhi⟩ :=
      Tiling.tiles_bounds Block.header_le h.tiles b (mem_used.mp hb).1
    simp only [MIN_USABLE] at h2
    exact ⟨by omega, by omega, by omega⟩
  apart := by
    refine ho.single.imp_of_mem (fun {g g'} hg hg' hne => ?_)
    obtain ⟨b, hb, h1, h2⟩ := ho.owner g hg
    obtain ⟨c, hc, h3, h4⟩ := ho.owner g' hg'
    have hbc : b ≠ c := fun heq => hne b hb ⟨h1, h2⟩ (heq ▸ ⟨h3, h4⟩)
    have happ := (Tiling.tiles_apart Block.header_le h.tiles (mem_used.mp hb).1
      (mem_used.mp hc).1).resolve_left hbc
    simp only [Grant.Apart]
    omega
  headers := by
    intro g hg a hlink
    obtain ⟨b, hb, h1, h2⟩ := ho.owner g hg
    obtain ⟨c, hc, rfl⟩ := h.linked_iff.mp hlink
    have hstop := c.header_le
    rcases Tiling.tiles_apart Block.header_le h.tiles (mem_used.mp hb).1 hc with rfl | happ
    · exact Or.inr h1
    · omega

/-- The pointer is a multiple of what was asked for. -/
theorem mod_align {l : Layout} {p : Nat} (h : p % max l.align HEADER_ALIGN = 0) :
    p % l.align = 0 := by
  have hdvd : l.align ∣ max l.align HEADER_ALIGN := by
    rcases Nat.le_total HEADER_ALIGN l.align with hle | hle
    · exact ⟨1, by rw [Nat.mul_one, Nat.max_eq_left hle]⟩
    · rw [Nat.max_eq_right hle]
      obtain ⟨k, hk⟩ := l.pow
      rw [hk] at hle ⊢
      exact (Nat.pow_dvd_pow_iff_le_right (by decide)).mpr
        ((Nat.pow_le_pow_iff_right (by decide)).mp (show 2 ^ k ≤ 2 ^ 3 from hle))
  exact Nat.mod_eq_zero_of_dvd (Nat.dvd_trans hdvd (Nat.dvd_of_mod_eq_zero h))

/-- What `alloc` makes of a layout. -/
def Requests (l : Layout) (size align : Nat) : Prop :=
  size = max l.size MIN_USABLE ∧ align = max l.align HEADER_ALIGN

variable {l : Layout} {size align : Nat}

theorem Requests.request (h : Requests l size align) : Request size align := by
  rw [h.1, h.2]
  exact l.request

/-- The blocks in use are then the old ones and the one that is carved out of
    a free block, which contains the grant. -/
theorem used_take (hl : Requests l size align) (haddr : b.addr ≤ USER_END) (hfree : b.free = true)
    (hroom : Room size align b) (pre post : List Block) :
    ∃ c, (∀ d, d ∈ used (pre ++ (carve (needed b.addr size align) b ++ post)) ↔
        d = c ∨ d ∈ used (pre ++ b :: post)) ∧
      Owns c ⟨alignedStart b.addr align, l⟩ ∧ c.addr = b.addr ∧ c.stop ≤ b.stop := by
  have hr := hl.request
  have hlo := (alignedStart_spec hr haddr).1
  obtain ⟨c, hused, hcaddr, hcn, hcstop⟩ := used_carve ((room_iff hr haddr).mpr hroom)
  rw [needed_eq hr haddr] at hcn
  refine ⟨c, fun d => ?_, ⟨by rw [hcaddr]; exact hlo, ?_⟩, hcaddr, hcstop⟩
  · rw [used_append, used_append, hused, used_append, used_cons, if_pos hfree]
    simp only [mem_append, mem_singleton]
    tauto
  · rw [← hl.1]
    simp only [HEADER_SIZE] at *
    omega

/-- The grant that is taken out of a free block is owned by the block that is
    carved out of it. -/
theorem owned_take {lo hi : Nat} (hl : Requests l size align)
    (ht : Tiles lo (pre ++ b :: post) hi) (hhi : hi ≤ USER_END)
    (ho : Owned live (pre ++ b :: post)) (hfree : b.free = true) (hroom : Room size align b) :
    Owned (⟨alignedStart b.addr align, l⟩ :: live)
      (pre ++ (carve (needed b.addr size align) b ++ post)) := by
  have haddr : b.addr ≤ USER_END := by
    have hstop := (tiles_around ht).2.2.1
    have hle := b.header_le
    omega
  obtain ⟨hlo, _, hmod⟩ := alignedStart_spec hl.request haddr
  obtain ⟨c, hmem, hnew, hcaddr, hcstop⟩ := used_take hl haddr hfree hroom pre post
  -- What the program held is in other blocks.
  have hother : ∀ g ∈ live, ¬ Owns c g := by
    intro g hg hcg
    obtain ⟨d, hd, hdg⟩ := ho.owner g hg
    have hbg : Owns b g := ⟨hcaddr ▸ hcg.1, Nat.le_trans hcg.2 hcstop⟩
    have hbd := owns_unique ht (by simp) (mem_used.mp hd).1 hbg hdg
    rw [← hbd, mem_used, hfree] at hd
    exact absurd hd.2 (by decide)
  refine ⟨?_, ?_, pairwise_cons.mpr ⟨?_, ?_⟩⟩
  · intro g hg
    rcases mem_cons.mp hg with rfl | hin
    · exact mod_align (hl.2 ▸ hmod)
    · exact ho.aligned g hin
  · intro g hg
    rcases mem_cons.mp hg with rfl | hin
    · exact ⟨c, (hmem c).mpr (Or.inl rfl), hnew⟩
    · obtain ⟨d, hd, hdg⟩ := ho.owner g hin
      exact ⟨d, (hmem d).mpr (Or.inr hd), hdg⟩
  · intro g hg d hd hdnew hdg
    rcases (hmem d).mp hd with rfl | hin
    · exact hother g hg hdg
    · have hbnew : Owns b ⟨alignedStart b.addr align, l⟩ :=
        ⟨hlo, Nat.le_trans hnew.2 hcstop⟩
      have hbd := owns_unique ht (by simp) (mem_used.mp hin).1 hbnew hdnew
      rw [← hbd, mem_used, hfree] at hin
      exact absurd hin.2 (by decide)
  · refine ho.single.imp_of_mem (fun {g g'} hg _ hne d hd hdg => ?_)
    rcases (hmem d).mp hd with rfl | hin
    · exact absurd hdg (hother g hg)
    · exact hne d hin hdg

/-! ### Freeing -/

/-- Freeing a pointer in a block frees that block, and no other block in use
    changes. -/
theorem dealloc_shape {ptr : Nat} (h : Shape t (pre ++ b :: post)) (hlock : t.locked = false)
    (h1 : b.addr + HEADER_SIZE ≤ ptr) (h2 : ptr < b.stop) :
    ∃ h' c post', absorbNext { b with free := true } post = c :: post' ∧
      t.dealloc ptr = some { t with headers := h' } ∧
      Shape { t with headers := h' } (absorbPrev pre c ++ post') ∧
      used (absorbPrev pre c ++ post') = used pre ++ used post := by
  have hb0 : b.addr ≠ 0 := (listed_middle.mp h.listed).2.1
  have hptr : ptr ≠ 0 := by omega
  have hlen := h.length_lt
  have hfind := findOwner_spec h.listed h.tiles h.top h1 h2 hlen
  -- The block is marked,
  have hmark := setIsFree_listed h.listed h.tiles true
  have htiles : Tiles t.head (pre ++ { b with free := true } :: post) t.heapEnd :=
    tiles_replace h.tiles (show Tiles b.addr [{ b with free := true }] b.stop from ⟨rfl, rfl⟩)
  -- joined with the next one,
  have hnext := coalesce_listed hmark htiles h.top
  obtain ⟨c, post', habs, hcaddr, hcfree, hused, hrest⟩ :=
    absorbNext_eq { b with free := true } post
  rw [habs] at hnext
  have htiles' : Tiles t.head (pre ++ c :: post') t.heapEnd := by
    obtain ⟨hpre, hpost⟩ := tiles_middle htiles
    exact (Tiling.tiles_append _ _ _ _ _ _).mpr ⟨_, hpre, hcaddr, hrest _ hpost⟩
  -- and with the one before.
  have hlen' : (pre ++ c :: post').length < walkBound t := by
    have hle := Tiling.tiles_length Block.header_le htiles'
    simp only [HEADER_SIZE, walkBound] at *
    omega
  obtain ⟨h', hprev, hdone⟩ := coalescePrev_listed hnext htiles' h.top hcfree hlen'
  refine ⟨h', c, post', habs, ?_, ⟨hdone, tiles_absorbPrev htiles', h.start, h.page, h.top⟩, ?_⟩
  · have hlocked : ¬ t.locked = true := by rw [hlock]; decide
    rw [hcaddr] at hprev
    rw [dealloc, if_neg hptr, if_neg hlocked, hfind, Option.bind_some, if_neg hb0]
    exact congrArg (Option.map _) hprev
  · rw [used_append, used_absorbPrev hcfree, hused]

/-! ### One call -/

/-- The heap is not there yet, or it is a block list with owners. -/
def Inv (s : Session) : Prop :=
  s.heap.locked = false ∧
    ((s.heap.head = 0 ∧ s.live = []) ∨ ∃ bs, Shape s.heap bs ∧ Owned s.live bs)

theorem Inv.good (h : Inv s) : Good s := by
  rcases h.2 with ⟨_, hlive⟩ | ⟨bs, hshape, howned⟩
  · refine ⟨?_, ?_, ?_, ?_⟩ <;> rw [hlive]
    · exact forall_mem_nil _
    · exact forall_mem_nil _
    · exact List.Pairwise.nil
    · exact forall_mem_nil _
  · exact good_of_owned hshape howned

/-- Without room behind the padding, the pointer or its end is behind the end
    of the heap. For requests of less than `MIN_USABLE` bytes this rests on the
    heap ending with a page. -/
theorem outside_of_not_room {e : Block} (hl : Requests l size align) (hshape : Shape t (pre ++ [e]))
    (he : e.addr + growth size ≤ t.heapEnd) (hroom : ¬ Room size align e) :
    ¬ (alignedStart e.addr align < t.heapEnd ∧
      alignedStart e.addr align + l.size ≤ t.heapEnd) := by
  rintro ⟨hlt, hle⟩
  have hr := hl.request
  have haddr : e.addr ≤ USER_END := hshape.addr_le e (by simp)
  have hstop : e.stop = t.heapEnd := (tiles_middle hshape.tiles).2
  obtain ⟨hlo, hhi, hmod⟩ := alignedStart_spec hr haddr
  obtain ⟨k, hk⟩ := hr.pow
  rw [Room, hstop] at hroom
  by_cases hbig : MIN_USABLE ≤ l.size
  · rw [hl.1, Nat.max_eq_left hbig] at hroom
    exact hroom hle
  · have hsize : size = 16 := hl.1.trans (Nat.max_eq_right (Nat.le_of_not_le hbig))
    have hgrowth : growth 16 = 4096 := by decide
    rw [hsize, hgrowth] at he
    have hpage := hshape.page
    simp only [HEADER_SIZE, PAGE_SIZE] at *
    -- A small alignment does not reach that far, a large one is a multiple of
    -- the page.
    rcases Nat.lt_or_ge k 12 with hsmall | hlarge
    · have hpow : 2 ^ k ≤ 2 ^ 11 := Nat.pow_le_pow_right (by decide) (by omega)
      omega
    · have hdvd : 4096 ∣ alignedStart e.addr align := by
        have h12 : (2 : Nat) ^ 12 ∣ 2 ^ k := Nat.pow_dvd_pow 2 hlarge
        rw [← hk] at h12
        exact Nat.dvd_trans h12 (Nat.dvd_of_mod_eq_zero hmod)
      omega

/-- The same with a property of the pointers and the blocks. -/
def Holds (K : List Grant → List Block → Prop) (s : Session) : Prop :=
  s.heap.locked = false ∧
    ((s.heap.head = 0 ∧ s.live = []) ∨ ∃ bs, Shape s.heap bs ∧ Owned s.live bs ∧ K s.live bs)

theorem inv_iff_holds : Inv s ↔ Holds (fun _ _ => True) s := by
  simp only [Inv, Holds, and_true]

section Steps

variable {K L : List Grant → List Block → Prop} (h : Holds K s)

include h

section

variable (hk : Kernel brk)
  (hstart : ∀ b : Block, b.free = true → b.addr % PAGE_SIZE = 0 → K [] [b])

include hk hstart

/-- The heap that is searched has the property, if a heap that was just started
    has it. -/
theorem Holds.ready : Holds K { s with heap := BrkAllocator.ready brk s.heap } := by
  rcases h.2 with ⟨hhead, hlive⟩ | ⟨bs, hshape, howned⟩
  · obtain ⟨hready, hnone | ⟨b, hfree, hpage, hshape⟩⟩ := ready_cases hk hhead
    · exact ⟨hready.trans h.1, Or.inl ⟨hnone, hlive⟩⟩
    · refine ⟨hready.trans h.1, Or.inr ⟨[b], hshape, ?_⟩⟩
      rw [show s.live = [] from hlive]
      exact ⟨⟨forall_mem_nil _, forall_mem_nil _, List.Pairwise.nil⟩,
        hstart b hfree hpage⟩
  · rw [BrkAllocator.ready, if_neg hshape.start]
    exact h

/-- An allocation is served. If it is not covered, it breaks the contract;
    otherwise there is no memory, or the request is taken out of the block that
    is chosen. -/
theorem Holds.alloc (htake : ∀ bs t' pre b post size align, Requests l size align →
      Shape (BrkAllocator.ready brk s.heap) bs → K s.live bs →
      chosen brk size align (BrkAllocator.ready brk s.heap) = some (t', b.addr) →
      Shape t' (pre ++ b :: post) → Grown bs (pre ++ b :: post) → b.free = true →
      Room size align b → L (⟨alignedStart b.addr align, l⟩ :: s.live)
        (pre ++ (carve (needed b.addr size align) b ++ post))) :
    ∃ v, serve s (.alloc l brk) = some v ∧
      ((¬ Covered s (.alloc l brk) ∧ ¬ Good v) ∨
        (Covered s (.alloc l brk) ∧ v.heap.locked = false ∧
          ((chosen brk (max l.size MIN_USABLE) (max l.align HEADER_ALIGN)
              (BrkAllocator.ready brk s.heap) = some (BrkAllocator.ready brk s.heap, 0) ∧
            v = { s with heap := BrkAllocator.ready brk s.heap }) ∨
          ∃ bs, Shape v.heap bs ∧ Owned v.live bs ∧ L v.live bs))) := by
  have hr := l.request
  rw [serve, BrkAllocator.alloc, if_neg (by rw [h.1]; decide), allocIn_eq, Option.map_map]
  obtain ⟨hlock, ⟨hnone, hlive⟩ | ⟨bs, hshape, howned, hK⟩⟩ := h.ready hk hstart
  · -- There is no heap, and no pointer is returned.
    rw [chosen, if_pos hnone]
    exact ⟨_, rfl, Or.inr ⟨fun hno => absurd hnone hno, hlock, Or.inl ⟨rfl, rfl⟩⟩⟩
  · rcases chosen_block hshape hr hk with ⟨hcov, hchosen⟩ |
      ⟨t', pre, b, post, hchosen, hsame, hshape', hgrown, hfree, hcases⟩
    · exact ⟨_, congrArg _ hchosen, Or.inr ⟨hcov, hlock, Or.inl ⟨hchosen, rfl⟩⟩⟩
    · refine ⟨_, congrArg _ hchosen, ?_⟩
      rw [comp_apply, hold_taken hshape' hr]
      rcases hcases with ⟨hcov, hroom⟩ | ⟨hcov, hroom, rfl, he⟩
      · refine Or.inr ⟨hcov, hsame.trans hlock, Or.inr ⟨_, takeBlock_shape hshape' hr hroom, ?_,
          htake bs t' pre b post _ _ ⟨rfl, rfl⟩ hshape hK hchosen hshape' hgrown hfree hroom⟩⟩
        exact owned_take ⟨rfl, rfl⟩ hshape'.tiles hshape'.top (howned.congr hgrown.used_eq) hfree
          hroom
      · refine Or.inl ⟨hcov, fun hgood => ?_⟩
        have hinside := hgood.inside _ mem_cons_self
        exact outside_of_not_room ⟨rfl, rfl⟩ hshape' he hroom ⟨hinside.2.1, hinside.2.2⟩

end

/-- Freeing keeps the owners of all other pointers. -/
theorem Holds.dealloc {g : Grant} (hg : g ∈ s.live)
    (hfreed : ∀ pre b post c post', Shape s.heap (pre ++ b :: post) → K s.live (pre ++ b :: post) →
      Owns b g → absorbNext { b with free := true } post = c :: post' →
      used (absorbPrev pre c ++ post') = used pre ++ used post →
      L (s.live.filter (fun g' => g'.ptr != g.ptr)) (absorbPrev pre c ++ post')) :
    ∃ v, serve s (.dealloc g.ptr) = some v ∧ Holds L v := by
  obtain ⟨hlock, ⟨_, hlive⟩ | ⟨bs, hshape, ho, hK⟩⟩ := h
  · rw [hlive] at hg
    exact absurd hg not_mem_nil
  rw [serve]
  obtain ⟨b, hb, h1, h2⟩ := ho.owner g hg
  obtain ⟨pre, post, rfl⟩ := append_of_mem (mem_used.mp hb).1
  have hin : g.ptr < b.stop := by
    simp only [MIN_USABLE] at *
    omega
  obtain ⟨h', c, post', habs, hfree, hshape', hused⟩ := dealloc_shape hshape hlock h1 hin
  rw [hfree, Option.map_some]
  refine ⟨_, rfl, hlock, Or.inr ⟨_, hshape', ⟨?_, ?_, ?_⟩,
    hfreed pre b post c post' hshape hK ⟨h1, h2⟩ habs hused⟩⟩
  · exact fun g' hg' => ho.aligned g' (mem_filter.mp hg').1
  · intro g' hg'
    obtain ⟨hlive, hne⟩ := mem_filter.mp hg'
    obtain ⟨d, hd, hdg⟩ := ho.owner g' hlive
    refine ⟨d, ?_, hdg⟩
    rw [hused, ← used_append]
    -- The other pointer is not in the block that was freed.
    have hdb : d ≠ b := by
      rintro rfl
      have hgg : g ≠ g' := fun heq => by simp [heq] at hne
      have hsym : Std.Symm (fun g g' : Grant => ∀ b ∈ used (pre ++ d :: post),
          Owns b g → ¬ Owns b g') := ⟨fun x y hxy d hd hdy hdx => hxy d hd hdx hdy⟩
      exact ho.single.forall hg hlive hgg d hd ⟨h1, h2⟩ hdg
    simp only [mem_used, mem_append, mem_cons, hdb, false_or] at hd ⊢
    exact hd
  · refine (ho.single.filter _).imp (fun {x y} hxy d hd => hxy d ?_)
    rw [hused, ← used_append] at hd
    simp only [mem_used, mem_append, mem_cons] at hd ⊢
    exact ⟨hd.1.imp_right Or.inr, hd.2⟩

end Steps

/-- One call: a call that is covered keeps the invariant, and one that is not
    breaks the contract. -/
theorem step_covered {v : Session} {c : Call} (h : Inv s) (ha : Allowed s c)
    (hv : serve s c = some v) : (Covered s c ∧ Inv v) ∨ (¬ Covered s c ∧ ¬ Good v) := by
  rw [inv_iff_holds] at h ⊢
  cases c with
  | alloc l brk =>
    obtain ⟨w, hw, hcases⟩ := h.alloc (l := l) (L := fun _ _ => True) ha (fun _ _ _ => trivial)
      (fun _ _ _ _ _ _ _ _ _ _ _ _ _ _ _ => trivial)
    obtain rfl : w = v := Option.some.inj (hw.symm.trans hv)
    rcases hcases with hbad | ⟨hcov, hlock, ⟨_, rfl⟩ | hblocks⟩
    · exact Or.inr hbad
    · exact Or.inl ⟨hcov, h.ready ha (fun _ _ _ => trivial)⟩
    · exact Or.inl ⟨hcov, hlock, Or.inr hblocks⟩
  | dealloc ptr =>
    obtain ⟨g, hg, rfl⟩ := ha
    obtain ⟨w, hw, hinv⟩ := h.dealloc (L := fun _ _ => True) hg
      (fun _ _ _ _ _ _ _ _ _ _ => trivial)
    rw [hw, Option.some.injEq] at hv
    exact Or.inl ⟨trivial, hv ▸ hinv⟩

/-! ### Whole runs -/

/-- For every run of allocations and deallocations from the start: the
    contract holds in every state of the run exactly if every allocation that
    makes the heap grow is covered. -/
theorem good_iff_covered (s t : Session) (hs : heaps.start s) (cs : List Call)
    (hrun : heaps.run s cs = some t) :
    heaps.Throughout s cs Good ↔ heaps.Keeps s cs Covered := by
  obtain ⟨headers, rfl⟩ := hs
  have hinv : Inv { heap := new headers, live := [] } := ⟨rfl, Or.inl ⟨rfl, rfl⟩⟩
  refine Machine.throughout_iff_keeps_under hinv hinv.good (fun u v c hu ha hv => ?_) hrun
  rcases step_covered hu ha hv with ⟨hc, hv'⟩ | ⟨hc, hbad⟩
  · exact ⟨⟨fun _ => hc, fun _ => hv'.good⟩, fun _ => hv'⟩
  · exact ⟨⟨fun hgood => absurd hgood hbad, fun hyes => absurd hyes hc⟩,
      fun hyes => absurd hyes hc⟩

/-- A program whose break is at 4 MiB, and a kernel that grants whatever is an
    address of the program. -/
def program : Session := { heap := new (fun _ => ⟨0, false, 0⟩), live := [] }

def grantAll (a : Nat) : Nat := if a = 0 then 0x400000 else if a ≤ USER_END then a else 0

theorem kernel_grantAll : Kernel grantAll := by
  refine ⟨by decide, fun a ha => ?_⟩
  rw [grantAll, if_neg ha]
  by_cases hle : a ≤ USER_END
  · rw [if_pos hle]
    exact Or.inr ⟨rfl, hle⟩
  · rw [if_neg hle]
    exact Or.inl (Nat.pos_of_ne_zero ha)

/-- All that the fresh heap has, and a page less a header with an alignment
    above that of the header. -/
def wholeHeap : Layout := ⟨65512, 8, ⟨3, rfl⟩, by decide⟩

def wholePage : Layout := ⟨4072, 16, ⟨4, rfl⟩, by decide⟩

def smallRequest : Layout := ⟨100, 64, ⟨6, rfl⟩, by decide⟩

/-- The first request takes the whole heap. For the second one the heap grows
    by one page, of which 4072 bytes are left behind the header, but the
    pointer is 32 bytes into the page. -/
theorem alloc_past_end :
    ∃ t, heaps.run program [.alloc wholeHeap grantAll, .alloc wholePage grantAll] = some t ∧
      (∃ g ∈ t.live, g.ptr = 0x410020 ∧ g.layout.size = 4072) ∧ t.heap.heapEnd = 0x411000 ∧
      ¬ Good t := by
  have hrun : ((serve program (.alloc wholeHeap grantAll)).bind
      (fun u => serve u (.alloc wholePage grantAll))).map
        (fun t => (t.heap.heapEnd, t.live.map (fun g => (g.ptr, g.layout.size)))) =
      some (0x411000, [(0x410020, 4072), (0x400018, 65512)]) := by decide
  rw [Option.map_eq_some_iff] at hrun
  obtain ⟨t, ht, hview⟩ := hrun
  rw [Option.bind_eq_some_iff] at ht
  obtain ⟨u, hu, ht⟩ := ht
  rw [Prod.mk.injEq] at hview
  obtain ⟨hend, hlive⟩ := hview
  have hmem : ((0x410020, 4072) : Nat × Nat) ∈ t.live.map (fun g => (g.ptr, g.layout.size)) := by
    rw [hlive]
    exact mem_cons_self
  obtain ⟨g, hg, hview⟩ := mem_map.mp hmem
  rw [Prod.mk.injEq] at hview
  refine ⟨t, ?_, ⟨g, hg, hview⟩, hend, fun hgood => ?_⟩
  · exact Machine.run_cons.mpr ⟨u, kernel_grantAll, hu,
      Machine.run_cons.mpr ⟨t, kernel_grantAll, ht, rfl⟩⟩
  · have hinside := (hgood.inside g hg).2.2
    rw [hview.1, hview.2, hend] at hinside
    exact absurd hinside (by decide)

/-- Two requests, the second of which makes the heap grow, and the first
    pointer is given back. -/
def twoRequests : List Call :=
  [.alloc wholeHeap grantAll, .alloc smallRequest grantAll, .dealloc 0x400018]

/-- The second request is covered: the only block is in use, and a page behind
    it has room for the padding. -/
theorem covered_smallRequest {u : Session}
    (hu : serve program (.alloc wholeHeap grantAll) = some u) :
    Covered u (.alloc smallRequest grantAll) := by
  have hview :
      ((serve program (.alloc wholeHeap grantAll)).map (fun u => ready grantAll u.heap)).map
      (fun t => (t.head, t.heapEnd, (t.headers 0x400000).next, (t.headers 0x400000).isFree)) =
      some (0x400000, 0x410000, 0, false) := by decide
  rw [hu, Option.map_some, Option.map_some, Option.some.injEq] at hview
  simp only [Prod.mk.injEq] at hview
  obtain ⟨hhead, hend, hnext, hfree⟩ := hview
  have hone : ∀ a, Linked (ready grantAll u.heap) a → a = 0x400000 := by
    intro a ha
    induction ha with
    | head _ => exact hhead
    | next a _ hne ih =>
      rw [ih, hnext] at hne
      exact absurd rfl hne
  intro _ _ _ a ha _
  rw [hone a ha, hfree, if_neg Bool.false_ne_true, hend]
  decide

theorem good_twoRequests :
    ∃ v t, heaps.run program (twoRequests.take 2) = some v ∧ v.live.length = 2 ∧
      v.heap.heapEnd = 0x411000 ∧ heaps.run program twoRequests = some t ∧
      heaps.Throughout program twoRequests Good := by
  have hview : ((serve program (.alloc wholeHeap grantAll)).bind (fun u =>
      (serve u (.alloc smallRequest grantAll)).bind (fun v =>
        (serve v (.dealloc 0x400018)).map (fun _ =>
          (v.live.map Grant.ptr, v.heap.heapEnd))))) =
      some ([0x410040, 0x400018], 0x411000) := by decide
  obtain ⟨u, hu, hview⟩ := Option.bind_eq_some_iff.mp hview
  obtain ⟨v, hv, hview⟩ := Option.bind_eq_some_iff.mp hview
  obtain ⟨t, ht, hview⟩ := Option.map_eq_some_iff.mp hview
  rw [Prod.mk.injEq] at hview
  have hheld : ∃ g ∈ v.live, g.ptr = 0x400018 := by
    have hmem : 0x400018 ∈ v.live.map Grant.ptr := by
      rw [hview.1]
      exact mem_cons_of_mem _ mem_cons_self
    exact mem_map.mp hmem
  have hlen : v.live.length = 2 := by rw [← length_map Grant.ptr, hview.1]; rfl
  have hrun : heaps.run program twoRequests = some t :=
    Machine.run_cons.mpr ⟨u, kernel_grantAll, hu, Machine.run_cons.mpr
      ⟨v, kernel_grantAll, hv, Machine.run_cons.mpr ⟨t, hheld, ht, rfl⟩⟩⟩
  refine ⟨v, t, Machine.run_cons.mpr ⟨u, kernel_grantAll, hu, Machine.run_cons.mpr
    ⟨v, kernel_grantAll, hv, rfl⟩⟩, hlen, hview.2, hrun,
    (good_iff_covered program t ⟨_, rfl⟩ _ hrun).mpr
      ((Machine.keeps_cons kernel_grantAll hu).mpr ⟨fun _ hno => ?_,
        (Machine.keeps_cons kernel_grantAll hv).mpr ⟨covered_smallRequest hu,
          (Machine.keeps_cons hheld ht).mpr ⟨trivial, Machine.keeps_nil⟩⟩⟩)⟩
  refine absurd ⟨0x400000, Linked.head (by decide), by decide, ?_⟩ hno
  decide

end SysRust.BrkAllocator
