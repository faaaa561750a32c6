import SysRust.Lib.Bitmap
import SysRust.Lib.Memory
import SysRust.Lib.Word

/-!
# The Physical Page Allocator

The bitmap allocator of `pmm.rs`. Each bit stands for one 4 KB page, set
meaning used or reserved. Initialisation marks everything used, frees what
the Multiboot memory map calls available, and then reserves the first
megabyte and the kernel image again.

The memory map is walked where the boot loader left it, in memory, one entry
at a time. The step from an entry to the next is the entry's own `size`
field, in 32-bit arithmetic, so a malformed map can make the walk go round
for ever; the walk takes fuel and returns `none` when it has not ended.

The page counters are 32-bit words and wrap like the source's.

## Main definitions

* `MultibootInfo`, `MmapEntry`, `mmapEntry`: What the boot loader passes.
* `Pmm`: The bitmap and the counters.
* `markRegionFree`, `markRegionUsed`: Free or reserve a byte range.
* `walkMmap`, `reserveKernel`, `init`, `reserveRange`: Initialisation.
* `allocPage`, `freePage`: The allocator.
-/

namespace SysRust

/-- The fields of the Multiboot information that the allocator reads. -/
structure MultibootInfo where
  flags : BitVec 32
  mmapLength : Nat
  mmapAddr : Nat

/-- A memory map entry. `length_high` is skipped: the code does not read it. -/
structure MmapEntry where
  size : Nat
  baseLow : Nat
  baseHigh : Nat
  lengthLow : Nat
  entryType : Nat

/-- The allocator's state. -/
structure Pmm where
  bitmap : Bitmap 32
  totalPages : BitVec 32
  freePages : BitVec 32

namespace Pmm

def PAGE_SIZE : Nat := 4096
def MAX_PAGES : Nat := 1048576
def MULTIBOOT_FLAG_MMAP : BitVec 32 := 1#32 <<< 6

/-- The packed entry at `a`. -/
def mmapEntry (m : Mem) (a : Nat) : MmapEntry where
  size := load m a 4
  baseLow := load m (a + 4) 4
  baseHigh := load m (a + 8) 4
  lengthLow := load m (a + 12) 4
  entryType := load m (a + 20) 4

def bitmapTest (page : Nat) (s : Pmm) : Bool := s.bitmap.test page

def bitmapSet (page : Nat) (s : Pmm) : Pmm := { s with bitmap := s.bitmap.set page }

def bitmapClear (page : Nat) (s : Pmm) : Pmm := { s with bitmap := s.bitmap.clear page }

/-- Mark a page free and count it, if it is used. -/
def releasePage (s : Pmm) (page : Nat) : Pmm :=
  if bitmapTest page s = true then
    { bitmapClear page s with freePages := s.freePages + 1 }
  else s

/-- Mark a page used and count it, if it is free. -/
def takePage (s : Pmm) (page : Nat) : Pmm :=
  if bitmapTest page s = false then
    { bitmapSet page s with freePages := s.freePages - 1 }
  else s

/-- The pages from `pageStart` to `pageEnd`, with the clamp at `MAX_PAGES`. -/
def pageRange (pageStart pageEnd : Nat) : List Nat :=
  if pageStart ≥ MAX_PAGES then []
  else List.range' pageStart (min pageEnd MAX_PAGES - pageStart)

/-- Free the pages of a region, its last partial page excluded. -/
def markRegionFree (base length : Nat) (s : Pmm) : Pmm :=
  (pageRange (u32 (base / PAGE_SIZE)) (u32 (u64 (base + length) / PAGE_SIZE))).foldl releasePage s

/-- Reserve the pages of a region, its last partial page included. -/
def markRegionUsed (base length : Nat) (s : Pmm) : Pmm :=
  (pageRange (u32 (base / PAGE_SIZE))
    (u32 (u64 (base + length + PAGE_SIZE - 1) / PAGE_SIZE))).foldl takePage s

/-- Free the region of an available entry, clamped to the 4 GB the bitmap
    covers. -/
def addEntry (e : MmapEntry) (s : Pmm) : Pmm :=
  if e.entryType = 1 ∧ e.baseHigh = 0 then
    let stop := min (e.baseLow + e.lengthLow) (MAX_PAGES * PAGE_SIZE)
    if e.baseLow < stop then markRegionFree e.baseLow (stop - e.baseLow) s else s
  else s

/-- Walk the memory map from `offset`. -/
def walkMmap (m : Mem) (mb : MultibootInfo) : Nat → Nat → Pmm → Option Pmm
  | 0, _, _ => none
  | fuel + 1, offset, s =>
    if offset < mb.mmapLength then
      let e := mmapEntry m (u32 (mb.mmapAddr + offset))
      walkMmap m mb fuel (u32 (offset + u32 (e.size + 4))) (addEntry e s)
    else some s

/-- The number of set bits, as the last loop of `init` counts them. -/
def countUsed (b : Bitmap 32) : BitVec 32 :=
  (List.range MAX_PAGES).foldl (fun n i => if b.test i = true then n + 1 else n) 0

/-- Reserve the first megabyte and the kernel image behind it. -/
def reserveKernel (kernelEnd : Nat) (s : Pmm) : Pmm :=
  markRegionUsed 0x100000 (kernelEnd - 0x100000) (markRegionUsed 0 0x100000 s)

/-- Count all pages, used or free. -/
def recordTotal (s : Pmm) : Pmm := { s with totalPages := s.freePages + countUsed s.bitmap }

/-- `pmm::init` for a kernel image that ends at `kernelEnd`. -/
def init (fuel kernelEnd : Nat) (m : Mem) (mb : MultibootInfo) : Option Pmm :=
  let full : Pmm := { bitmap := fun _ => BitVec.allOnes 32, totalPages := 0, freePages := 0 }
  let walked := if mb.flags &&& MULTIBOOT_FLAG_MMAP ≠ 0 then walkMmap m mb fuel 0 full
    else some full
  walked.map (fun s => recordTotal (reserveKernel kernelEnd s))

def reserveRange (start stop : Nat) (s : Pmm) : Pmm :=
  if stop ≤ start then s else markRegionUsed start (stop - start) s

/-- The lowest free page, marked used; `0` when there is none. -/
def allocPage (s : Pmm) : Pmm × Nat :=
  match s.bitmap.firstClear 0 (MAX_PAGES / 32) with
  | some (i, bit) =>
    ({ bitmapSet (i * 32 + bit) s with freePages := s.freePages - 1 },
      (i * 32 + bit) * PAGE_SIZE)
  | none => (s, 0)

def freePage (addr : Nat) (s : Pmm) : Pmm :=
  if addr = 0 then s
  else
    let page := u32 (addr / PAGE_SIZE)
    if page ≥ MAX_PAGES then s else releasePage s page

end Pmm

end SysRust
