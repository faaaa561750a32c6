import SysRust.Core.Heap
import SysRust.Core.Mmap

/-!
# The Address Space

The places that hand out addresses: the kernel heap (`kmalloc`), the program
break (`set_brk`, `sys_brk`), anonymous mappings (`sys_mmap`) and the fixed
load address of flat binaries (`cmd_run`). They are the models of `Core.Heap`,
`Core.Brk` and `Core.Mmap` side by side, each over a memory of its own, with
the frontiers `HEAP_PAGES`, `CURRENT_BRK` and `MMAP_NEXT`.

## Main definitions

* `Space`: The heap and the regions of programs.
* `heapTop`, `heapRange`, `flatRange`: The ranges that the heap and a flat
  image take.
* `mmapPages`: The pages of a mapping.
-/

namespace SysRust

structure Space where
  heap : Heap
  regions : Brk.Regions

/-- Addresses from the first up to, but not including, the second. -/
abbrev Range := Nat × Nat

namespace Space

def FLAT_LOAD_BASE : Nat := 0x00A00000
def MMAP_BASE : Nat := 0x7F000000

/-- The end of a heap of this many pages. -/
def heapTop (pages : Nat) : Nat := Heap.HEAP_START + pages * Heap.VMM_PAGE_SIZE

def heapRange (h : Heap) : Range := (Heap.HEAP_START, heapTop h.pages)

def setBrk (brk : Nat) (s : Space) : Space :=
  { s with regions := { s.regions with currentBrk := brk } }

/-- The number of pages of a mapping of `len` bytes, in 64 bits. -/
def mmapPages (len : Nat) : Nat := u64 (len + 0xFFF) / 0x1000

/-- Where `cmd_run` copies the `n` bytes of a flat binary. -/
def flatRange (n : Nat) : Range := (FLAT_LOAD_BASE, FLAT_LOAD_BASE + n)

end Space

end SysRust
