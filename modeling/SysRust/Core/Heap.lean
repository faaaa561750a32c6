import SysRust.Lib.Memory
import SysRust.Lib.Word

/-!
# The Kernel Heap

The free-list allocator of `heap.rs`. Every allocation is preceded by a
16-byte `BlockHeader` in raw memory, and the headers form one singly linked
list in address order from `HEAP_HEAD`.

The model keeps the list where the code keeps it, in byte memory: a header
field is a load, an assignment to a field is a store, and following `next`
is reading eight bytes. Nothing is known about the list beyond what those
bytes say, which is what makes the structural theorems about it worth
proving.

The `while` loops of the source walk the list until they meet a null
pointer. They are bounded here by `loopBound`, one more than the number of
headers that fit in the mapped pages, and return `none` if they have not
finished by then. `none` therefore stands for a walk that does not end.

`pmm::alloc_page` is a parameter: `phys i` is what the `i`-th call made by
one growth of the heap returns, `0` meaning that the page allocator is
exhausted. All 32-bit arithmetic is written with its wrap-around.

`vmm::map_page`, which follows each such call, is left out: the pages of the
heap are taken to be plain memory once they are mapped. In the low 4 GB,
where the heap is, that rests on the large pages set up at boot, as
`map_page` itself writes its entry into the memory behind them.

## Main definitions

* `HEAP_START`, `HEAP_INITIAL_PAGES`, `HEAP_MAX_PAGES`, `MIN_SPLIT`,
  `HEADER_SIZE`, `VMM_PAGE_SIZE`: The tunables of the source.
* `sizeAt`, `isFreeAt`, `nextAt`: The fields of the header at an address.
* `Heap`: The allocator's state.
* `mapPages`: The page mapping loop of `expandHeap`.
* `expandHeap`: Grow the heap by whole pages.
* `coalesce`: Merge adjacent free blocks.
* `tryAlloc`: Allocate from one block, splitting it if it is large.
* `search`, `searchHeap`: First-fit over the block list.
* `init`, `kmalloc`, `kfree`: The public interface; `allocAligned` is the
  body of `kmalloc` once the request is rounded.
-/

namespace SysRust.Heap

def HEAP_START : Nat := 0x00500000
def HEAP_INITIAL_PAGES : Nat := 256
def HEAP_MAX_PAGES : Nat := 16384
def MIN_SPLIT : Nat := 16
def HEADER_SIZE : Nat := 16
def VMM_PAGE_SIZE : Nat := 4096

/-- The `size` field of the header at `p`: usable bytes, header excluded. -/
def sizeAt (m : Mem) (p : Nat) : Nat := load m p 4

/-- The `is_free` field of the header at `p`. -/
def isFreeAt (m : Mem) (p : Nat) : Nat := load m (p + 4) 4

/-- The `next` field of the header at `p`, a 64-bit pointer. -/
def nextAt (m : Mem) (p : Nat) : Nat := load m (p + 8) 8

def setSize (m : Mem) (p v : Nat) : Mem := store m p 4 v

def setIsFree (m : Mem) (p v : Nat) : Mem := store m (p + 4) 4 v

def setNext (m : Mem) (p v : Nat) : Mem := store m (p + 8) 8 v

end Heap

/-- The allocator's state: memory, `HEAP_HEAD` and `HEAP_PAGES`. -/
structure Heap where
  mem : Mem
  head : Nat
  pages : Nat

namespace Heap

/-- One more than the number of headers that fit in the mapped pages. -/
def loopBound (pages : Nat) : Nat := pages * (VMM_PAGE_SIZE / HEADER_SIZE) + 1

/-- The mapping loop of `expand_heap`: how many of `n` pages are obtained,
    starting with the `i`-th call to the page allocator. The loop stops at
    the first failure and keeps what it has. -/
def mapPages (phys : Nat → Nat) : Nat → Nat → Nat
  | _, 0 => 0
  | i, n + 1 => if phys i = 0 then 0 else mapPages phys (i + 1) n + 1

/-- Walk to the last header of the list. -/
def lastBlock (m : Mem) : Nat → Nat → Option Nat
  | 0, _ => none
  | f + 1, p => if nextAt m p = 0 then some p else lastBlock m f (nextAt m p)

/-- Grow the heap by `pages` pages, or by as many as the page allocator has,
    and append one free block covering the new space. -/
def expandHeap (phys : Nat → Nat) (pages : Nat) (h : Heap) : Option (Heap × Bool) :=
  if h.pages + pages > HEAP_MAX_PAGES then some (h, false)
  else
    let baseVirt := HEAP_START + h.pages * VMM_PAGE_SIZE
    let mapped := mapPages phys 0 pages
    if mapped = 0 then some (h, false)
    else
      let m1 := setSize h.mem baseVirt (u32 (mapped * VMM_PAGE_SIZE - HEADER_SIZE))
      let m2 := setIsFree m1 baseVirt 1
      let m3 := setNext m2 baseVirt 0
      if h.head = 0 then
        some ({ mem := m3, head := baseVirt, pages := h.pages + mapped }, true)
      else
        (lastBlock m3 (loopBound (h.pages + mapped)) h.head).map (fun last =>
          ({ mem := setNext m3 last baseVirt, head := h.head, pages := h.pages + mapped }, true))

/-- Walk the list from `cur` and merge each free block with the free blocks
    that follow it. After a merge the walk stays where it is. -/
def coalesce : Nat → Mem → Nat → Option Mem
  | 0, _, _ => none
  | f + 1, m, cur =>
    if cur = 0 then some m
    else if isFreeAt m cur ≠ 0 ∧ nextAt m cur ≠ 0 ∧ isFreeAt m (nextAt m cur) ≠ 0 ∧
        cur + u32 (HEADER_SIZE + sizeAt m cur) = nextAt m cur then
      let m1 := setSize m cur
        (u32 (sizeAt m cur + u32 (HEADER_SIZE + sizeAt m (nextAt m cur))))
      let m2 := setNext m1 cur (nextAt m1 (nextAt m1 cur))
      coalesce f m2 cur
    else coalesce f m (nextAt m cur)

/-- Allocate from the block at `cur`: the memory afterwards and the pointer
    returned, `0` if the block is taken or too small. -/
def tryAlloc (m : Mem) (cur alignedSize : Nat) : Mem × Nat :=
  if isFreeAt m cur ≠ 0 ∧ sizeAt m cur ≥ alignedSize then
    let m' :=
      if sizeAt m cur ≥ u32 (u32 (alignedSize + HEADER_SIZE) + MIN_SPLIT) then
        let split := cur + u32 (HEADER_SIZE + alignedSize)
        let m1 := setSize m split
          (wrappingSub32 (wrappingSub32 (sizeAt m cur) alignedSize) HEADER_SIZE)
        let m2 := setIsFree m1 split 1
        let m3 := setNext m2 split (nextAt m2 cur)
        let m4 := setSize m3 cur alignedSize
        setNext m4 cur split
      else m
    (setIsFree m' cur 0, cur + HEADER_SIZE)
  else (m, 0)

/-- First-fit search from `cur`. -/
def search (alignedSize : Nat) : Nat → Mem → Nat → Option (Mem × Nat)
  | 0, _, _ => none
  | f + 1, m, cur =>
    if cur = 0 then some (m, 0)
    else
      let r := tryAlloc m cur alignedSize
      if r.2 ≠ 0 then some r else search alignedSize f r.1 (nextAt r.1 cur)

/-- The request in 32 bits, rounded up to a multiple of 8. Clearing the low
    three bits is a division and a multiplication by 8. -/
def alignSize (size : Nat) : Nat := u32 (u32 size + 7) / 8 * 8

/-- Pages to ask for when no block fits: at least 16, so 64 KB at a time. -/
def needPages (alignedSize : Nat) : Nat :=
  max 16 ((alignedSize + HEADER_SIZE + VMM_PAGE_SIZE - 1) / VMM_PAGE_SIZE)

/-- `heap::init` over whatever the memory held before. -/
def init (phys : Nat → Nat) (m : Mem) : Option Heap :=
  (expandHeap phys HEAP_INITIAL_PAGES { mem := m, head := 0, pages := 0 }).map Prod.fst

/-- First fit over the whole list, as both passes of `kmalloc` run it. -/
def searchHeap (alignedSize : Nat) (h : Heap) : Option (Heap × Nat) :=
  (search alignedSize (loopBound h.pages) h.mem h.head).map
    (fun r => ({ h with mem := r.1 }, r.2))

/-- Search for `alignedSize` bytes, and if nothing fits grow the heap by
    `pages` pages and search once more. -/
def allocAligned (phys : Nat → Nat) (alignedSize pages : Nat) (h : Heap) : Option (Heap × Nat) :=
  (searchHeap alignedSize h).bind (fun first =>
    if first.2 ≠ 0 then some first
    else
      (expandHeap phys pages first.1).bind (fun grown =>
        if grown.2 = false then some (grown.1, 0) else searchHeap alignedSize grown.1))

def kmalloc (phys : Nat → Nat) (size : Nat) (h : Heap) : Option (Heap × Nat) :=
  if size = 0 then some (h, 0)
  else allocAligned phys (alignSize size) (needPages (alignSize size)) h

/-- `kfree` returns at once for a null pointer and for a block that is free
    already. -/
def kfree (p : Nat) (h : Heap) : Option Heap :=
  if p = 0 then some h
  else
    let hdr := p - HEADER_SIZE
    if isFreeAt h.mem hdr ≠ 0 then some h
    else
      (coalesce (loopBound h.pages) (setIsFree h.mem hdr 1) h.head).map
        (fun m => { h with mem := m })

end SysRust.Heap
