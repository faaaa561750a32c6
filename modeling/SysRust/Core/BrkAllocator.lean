import Mathlib.Logic.Function.Basic
import SysRust.Lib.Word

/-!
# The Allocator of User Programs

`BrkAllocator` of `sysrust-rt/src/allocator.rs`, the global allocator of the
programs that run on the kernel. It keeps one list of blocks in address
order, each behind a header of 24 bytes, takes the first free block in which
a request fits together with the padding for its alignment, and asks the
kernel for more memory with `sys::brk` when there is none.

Memory is seen as headers here: `headers a` is what the code finds when it
reads a `BlockHeader` at the address `a`. The contents of the blocks are the
program's; that it cannot reach a header through a pointer it was given is
what has to be proved.

`sys::brk` is a parameter of a call, a function from the address asked for to
the one returned. Pointers and sizes have 64 bits and wrap around. The loops
walk the list until they meet a null pointer; they are bounded by
`walkBound`, one more than the number of headers below the end of the heap,
and return `none` if they have not finished by then.

## Main definitions

* `BlockHeader`, `BrkAllocator`: A header, and `HEAD`, `HEAP_END`, `LOCKED`
  with the headers in memory.
* `alignUp`: Round an address up.
* `heapInit`, `heapGrow`: Memory from the kernel.
* `padding`, `needed`: What a request takes of a block.
* `findFreeBlock`, `splitBlock`, `coalesce`: The list.
* `Layout`: Size and alignment of a request.
* `alloc`, `dealloc`: The interface.
-/

namespace SysRust.BrkAllocator

structure BlockHeader where
  size : Nat
  isFree : Bool
  next : Nat

def HEADER_SIZE : Nat := 24
def HEADER_ALIGN : Nat := 8
def MIN_USABLE : Nat := 16
def PAGE_SIZE : Nat := 4096

end BrkAllocator

/-- The statics, and memory as headers. -/
structure BrkAllocator where
  headers : Nat → BrkAllocator.BlockHeader
  head : Nat
  heapEnd : Nat
  locked : Bool

namespace BrkAllocator

/-- Before the first allocation. -/
def new (headers : Nat → BlockHeader) : BrkAllocator :=
  { headers := headers, head := 0, heapEnd := 0, locked := false }

/-- `align` is a power of two: clearing the bits below it is a division and a
    multiplication. -/
def alignUp (addr align : Nat) : Nat := u64 (addr + align - 1) / align * align

/-- One more than the number of headers that fit below the end of the heap. -/
def walkBound (s : BrkAllocator) : Nat := s.heapEnd / HEADER_SIZE + 1

/-! ### Fields of headers -/

def setSize (h : Nat → BlockHeader) (p v : Nat) : Nat → BlockHeader :=
  Function.update h p { h p with size := v }

def setIsFree (h : Nat → BlockHeader) (p : Nat) (v : Bool) : Nat → BlockHeader :=
  Function.update h p { h p with isFree := v }

def setNext (h : Nat → BlockHeader) (p v : Nat) : Nat → BlockHeader :=
  Function.update h p { h p with next := v }

/-! ### Memory from the kernel -/

/-- Start with one free block. Without memory nothing is changed. -/
def heapInit (brk : Nat → Nat) (initialSize : Nat) (s : BrkAllocator) : BrkAllocator :=
  let start := u64 (brk 0 + 0xFFF) / 0x1000 * 0x1000
  let size := alignUp initialSize PAGE_SIZE
  let newEnd := u64 (start + size)
  if brk newEnd < newEnd then s
  else
    { s with
      headers := Function.update s.headers start
        { size := wrappingSub64 size HEADER_SIZE, isFree := true, next := 0 }
      head := start
      heapEnd := newEnd }

/-- Walk to the last block. -/
def lastBlock (h : Nat → BlockHeader) : Nat → Nat → Option Nat
  | 0, _ => none
  | f + 1, cur => if (h cur).next = 0 then some cur else lastBlock h f (h cur).next

/-- Put the new block behind the last one, or into it if it is free. -/
def appendBlock (h : Nat → BlockHeader) (cur block : Nat) : (Nat → BlockHeader) × Nat :=
  let h1 := setNext h cur block
  if u64 (cur + HEADER_SIZE + (h1 cur).size) = block ∧ (h1 cur).isFree = true then
    let h2 := setSize h1 cur (u64 ((h1 cur).size + HEADER_SIZE + (h1 block).size))
    (setNext h2 cur (h2 block).next, cur)
  else (h1, block)

/-- Grow the heap: the block to allocate from, `0` if there is no memory. -/
def heapGrow (brk : Nat → Nat) (minBytes : Nat) (s : BrkAllocator) : Option (BrkAllocator × Nat) :=
  let total := alignUp (u64 (minBytes + HEADER_SIZE)) PAGE_SIZE
  let newEnd := u64 (s.heapEnd + total)
  if brk newEnd < newEnd then some (s, 0)
  else
    let block := s.heapEnd
    let h := Function.update s.headers block
      { size := wrappingSub64 total HEADER_SIZE, isFree := true, next := 0 }
    if s.head = 0 then some ({ s with headers := h, heapEnd := newEnd, head := block }, block)
    else
      (lastBlock h (walkBound { s with heapEnd := newEnd }) s.head).map (fun cur =>
        ({ s with headers := (appendBlock h cur block).1, heapEnd := newEnd },
          (appendBlock h cur block).2))

/-! ### The list -/

/-- The first address behind the header that is a multiple of `align`. -/
def alignedStart (block align : Nat) : Nat := alignUp (u64 (block + HEADER_SIZE)) align

def padding (block align : Nat) : Nat :=
  wrappingSub64 (alignedStart block align) (u64 (block + HEADER_SIZE))

/-- What a request takes of a block. -/
def needed (block size align : Nat) : Nat := u64 (size + padding block align)

/-- First fit from `cur` on, `0` if no block fits. -/
def findFreeBlock (h : Nat → BlockHeader) (size align : Nat) : Nat → Nat → Option Nat
  | 0, _ => none
  | f + 1, cur =>
    if cur = 0 then some 0
    else if (h cur).isFree = true ∧ (h cur).size ≥ needed cur size align then some cur
    else findFreeBlock h size align f (h cur).next

/-- Make what is left behind `needed` bytes a block of its own, if it is large
    enough. -/
def splitBlock (h : Nat → BlockHeader) (block needed : Nat) : Nat → BlockHeader :=
  let remaining := wrappingSub64 (h block).size needed
  if remaining ≥ HEADER_SIZE + MIN_USABLE then
    let newBlock := u64 (block + HEADER_SIZE + needed)
    let h1 := setSize h newBlock (wrappingSub64 remaining HEADER_SIZE)
    let h2 := setIsFree h1 newBlock true
    let h3 := setNext h2 newBlock (h2 block).next
    let h4 := setSize h3 block needed
    setNext h4 block newBlock
  else h

/-- Merge the block with the next one, if that is free and adjacent. -/
def coalesce (h : Nat → BlockHeader) (block : Nat) : Nat → BlockHeader :=
  let next := (h block).next
  if next = 0 ∨ (h next).isFree = false then h
  else if u64 (block + HEADER_SIZE + (h block).size) = next then
    let h1 := setSize h block (u64 ((h block).size + HEADER_SIZE + (h next).size))
    setNext h1 block (h1 next).next
  else h

/-! ### The interface -/

/-- `core::alloc::Layout`: the alignment is a power of two, and the size
    rounded up to it fits into an `isize`. -/
structure Layout where
  size : Nat
  align : Nat
  pow : ∃ k, align = 2 ^ k
  fits : size + align ≤ 2 ^ 63

/-- The heap that `alloc` searches: on the first allocation it starts with
    64 KB. -/
def ready (brk : Nat → Nat) (s : BrkAllocator) : BrkAllocator :=
  if s.head = 0 then heapInit brk 65536 s else s

/-- Take the request out of the block. -/
def takeBlock (size align : Nat) (s : BrkAllocator) (block : Nat) : BrkAllocator × Nat :=
  ({ s with
      headers := setIsFree (splitBlock s.headers block (needed block size align)) block false },
    alignedStart block align)

/-- `alloc` behind the guard, with the raised size and alignment. -/
def allocIn (brk : Nat → Nat) (size align : Nat) (s : BrkAllocator) : Option (BrkAllocator × Nat) :=
  if (ready brk s).head = 0 then some (ready brk s, 0)
  else
    (findFreeBlock (ready brk s).headers size align (walkBound (ready brk s))
      (ready brk s).head).bind (fun block =>
        if block ≠ 0 then some (takeBlock size align (ready brk s) block)
        else
          (heapGrow brk size (ready brk s)).map (fun grown =>
            if grown.2 = 0 then grown else takeBlock size align grown.1 grown.2))

/-- The pointer is `0` if there is no memory. The lock is free again in every
    case. -/
def alloc (brk : Nat → Nat) (layout : Layout) (s : BrkAllocator) : Option (BrkAllocator × Nat) :=
  if s.locked = true then some (s, 0)
  else allocIn brk (max layout.size MIN_USABLE) (max layout.align HEADER_ALIGN) s

/-- The block whose data range contains the pointer, `0` if there is none. -/
def findOwner (h : Nat → BlockHeader) (ptr : Nat) : Nat → Nat → Option Nat
  | 0, _ => none
  | f + 1, cur =>
    if cur = 0 then some 0
    else if ptr ≥ u64 (cur + HEADER_SIZE) ∧ ptr < u64 (cur + HEADER_SIZE + (h cur).size) then
      some cur
    else findOwner h ptr f (h cur).next

/-- Walk from `prev` to the block before `cur`, and merge the two if it is
    free. -/
def coalescePrev (h : Nat → BlockHeader) (cur : Nat) : Nat → Nat → Option (Nat → BlockHeader)
  | 0, _ => none
  | f + 1, prev =>
    if prev = 0 then some h
    else if (h prev).isFree = true ∧ (h prev).next = cur then some (coalesce h prev)
    else if (h prev).next = cur then some h
    else coalescePrev h cur f (h prev).next

/-- A pointer that no block contains is ignored. -/
def dealloc (ptr : Nat) (s : BrkAllocator) : Option BrkAllocator :=
  if ptr = 0 then some s
  else if s.locked = true then some s
  else
    (findOwner s.headers ptr (walkBound s) s.head).bind (fun cur =>
      if cur = 0 then some s
      else
        (coalescePrev (coalesce (setIsFree s.headers cur true) cur) cur (walkBound s) s.head).map
          (fun h => { s with headers := h }))

end SysRust.BrkAllocator
