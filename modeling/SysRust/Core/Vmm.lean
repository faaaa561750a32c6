import SysRust.Lib.Memory
import SysRust.Lib.Word

/-!
# Page Tables

The four-level page tables of `vmm.rs`, in physical memory, and the boot
code that sets up the first of them. The kernel reaches every table through
the identity mapping of the first 4 GB, so a table's address is used as a
pointer and the model reads and writes physical memory directly.

`pmm::alloc_page` is a parameter: `supply` lists what the next calls return,
`0` (or the end of the list) meaning that no page is left. A function that
allocates gives back the part of the supply it did not use.

`hwTranslate` is the processor's own walk. It is not code of the kernel: it
says what the tables mean, and unlike the kernel's walks it stops at an
entry with the page-size bit.

## Main definitions

* `entryAt`, `setEntry`, `zeroPage`: Entries of a table.
* `pml4Index`, `pdptIndex`, `pdIndex`, `ptIndex`: The indices of a virtual
  address.
* `walkOrAlloc`, `walkReadonly`: One level of a walk.
* `mapPage`, `unmapPage`, `getPhysical`: The interface.
* `bootTables`: What the boot code writes.
* `hwTranslate`: The translation the hardware performs.
-/

namespace SysRust.Vmm

def PAGE_PRESENT : Nat := 0x01
def PAGE_WRITE : Nat := 0x02
def PAGE_USER : Nat := 0x04

/-- Bits 12 to 51 of an entry. -/
def ADDR_MASK : Nat := 0x000FFFFFFFFFF000

/-- The page-size bit of a directory entry. The kernel never looks at it. -/
def PAGE_SIZE_BIT : Nat := 0x80

/-- Entry `index` of a table. -/
def entryAt (m : Mem) (table index : Nat) : Nat := load m (table + 8 * index) 8

def setEntry (m : Mem) (table index v : Nat) : Mem := store m (table + 8 * index) 8 v

def zeroPage (m : Mem) (dest : Nat) : Mem := fill m dest 4096 0

def pml4Index (virt : Nat) : Nat := (virt >>> 39) &&& 0x1FF

def pdptIndex (virt : Nat) : Nat := (virt >>> 30) &&& 0x1FF

def pdIndex (virt : Nat) : Nat := (virt >>> 21) &&& 0x1FF

def ptIndex (virt : Nat) : Nat := (virt >>> 12) &&& 0x1FF

/-- What a step of a walk leaves: the memory, the next table (null if there
    is none) and the unused supply. -/
structure Walk where
  mem : Mem
  next : Nat
  supply : List Nat

/-- Follow an entry, allocating a table if it is not present. -/
def walkOrAlloc (m : Mem) (table index : Nat) (supply : List Nat) : Walk :=
  let entry := entryAt m table index
  if entry &&& PAGE_PRESENT ≠ 0 then
    { mem := m, next := entry &&& ADDR_MASK, supply := supply }
  else
    match supply with
    | [] => { mem := m, next := 0, supply := [] }
    | newTable :: rest =>
      if newTable = 0 then { mem := m, next := 0, supply := rest }
      else
        { mem := setEntry (zeroPage m newTable) table index
            (newTable ||| PAGE_PRESENT ||| PAGE_WRITE ||| PAGE_USER)
          next := newTable
          supply := rest }

/-- Follow an entry; null if it is not present. -/
def walkReadonly (m : Mem) (table index : Nat) : Nat :=
  let entry := entryAt m table index
  if entry &&& PAGE_PRESENT = 0 then 0 else entry &&& ADDR_MASK

/-- Map the page of `virt`. The result is the memory and the unused supply. -/
def mapPage (pml4 virt phys flags : Nat) (supply : List Nat) (m : Mem) : Mem × List Nat :=
  let r1 := walkOrAlloc m pml4 (pml4Index virt) supply
  if r1.next = 0 then (r1.mem, r1.supply)
  else
    let r2 := walkOrAlloc r1.mem r1.next (pdptIndex virt) r1.supply
    if r2.next = 0 then (r2.mem, r2.supply)
    else
      let r3 := walkOrAlloc r2.mem r2.next (pdIndex virt) r2.supply
      if r3.next = 0 then (r3.mem, r3.supply)
      else
        (setEntry r3.mem r3.next (ptIndex virt) ((phys &&& ADDR_MASK) ||| (flags &&& 0xFFF)),
          r3.supply)

/-- Clear the entry of the page of `virt`. -/
def unmapPage (pml4 virt : Nat) (m : Mem) : Mem :=
  let pdpt := walkReadonly m pml4 (pml4Index virt)
  if pdpt = 0 then m
  else
    let pd := walkReadonly m pdpt (pdptIndex virt)
    if pd = 0 then m
    else
      let pt := walkReadonly m pd (pdIndex virt)
      if pt = 0 then m else setEntry m pt (ptIndex virt) 0

/-- The physical address of `virt`, or 0. -/
def getPhysical (pml4 virt : Nat) (m : Mem) : Nat :=
  let pdpt := walkReadonly m pml4 (pml4Index virt)
  if pdpt = 0 then 0
  else
    let pd := walkReadonly m pdpt (pdptIndex virt)
    if pd = 0 then 0
    else
      let pt := walkReadonly m pd (pdIndex virt)
      if pt = 0 then 0
      else
        let pte := entryAt m pt (ptIndex virt)
        if pte &&& PAGE_PRESENT = 0 then 0 else (pte &&& ADDR_MASK) + (virt &&& 0xFFF)

/-! ### Boot -/

/-- The boot tables lie one after the other: PML4, PDPT and four page
    directories. -/
def bootPdpt (base : Nat) : Nat := base + 0x1000

def bootPd (base g : Nat) : Nat := base + 0x2000 + g * 0x1000

/-- The loop that fills a page directory, with `ecx` and `eax` as it counts. -/
def fillPd (pd : Nat) : Nat → Nat → Nat → Mem → Mem
  | 0, _, _, m => m
  | n + 1, ecx, eax, m =>
    fillPd pd n (ecx + 1) (u32 (eax + 0x200000))
      (store (store m (pd + ecx * 8) 4 eax) (pd + ecx * 8 + 4) 4 0)

/-- The links from the PML4 to the PDPT and from there to the directories.
    Only the low halves are written; the high halves are zero in the bss. -/
def bootLinks (base : Nat) (m : Mem) : Mem :=
  let m0 := store m base 4 (bootPdpt base ||| 0x03)
  let m1 := store m0 (bootPdpt base) 4 (bootPd base 0 ||| 0x03)
  let m2 := store m1 (bootPdpt base + 8) 4 (bootPd base 1 ||| 0x03)
  let m3 := store m2 (bootPdpt base + 16) 4 (bootPd base 2 ||| 0x03)
  store m3 (bootPdpt base + 24) 4 (bootPd base 3 ||| 0x03)

/-- The bootstrap page tables: 4 GB mapped to itself with 2 MB pages. -/
def bootTables (base : Nat) (m : Mem) : Mem :=
  let m0 := fillPd (bootPd base 0) 512 0 0x00000083 (bootLinks base m)
  let m1 := fillPd (bootPd base 1) 512 0 0x40000083 m0
  let m2 := fillPd (bootPd base 2) 512 0 0x80000083 m1
  fillPd (bootPd base 3) 512 0 0xC0000083 m2

/-! ### The hardware's walk -/

/-- The physical address the processor computes for `virt`, or `none` for a
    page fault. Entries of the second and third level with the page-size bit
    end the walk. -/
def hwTranslate (m : Mem) (pml4 virt : Nat) : Option Nat :=
  let e4 := entryAt m pml4 (pml4Index virt)
  if e4 &&& PAGE_PRESENT = 0 then none
  else
    let e3 := entryAt m (e4 &&& ADDR_MASK) (pdptIndex virt)
    if e3 &&& PAGE_PRESENT = 0 then none
    else if e3 &&& PAGE_SIZE_BIT ≠ 0 then some ((e3 &&& 0x000FFFFFC0000000) + virt % 2 ^ 30)
    else
      let e2 := entryAt m (e3 &&& ADDR_MASK) (pdIndex virt)
      if e2 &&& PAGE_PRESENT = 0 then none
      else if e2 &&& PAGE_SIZE_BIT ≠ 0 then some ((e2 &&& 0x000FFFFFFFE00000) + virt % 2 ^ 21)
      else
        let e1 := entryAt m (e2 &&& ADDR_MASK) (ptIndex virt)
        if e1 &&& PAGE_PRESENT = 0 then none else some ((e1 &&& ADDR_MASK) + virt % 2 ^ 12)

end SysRust.Vmm
