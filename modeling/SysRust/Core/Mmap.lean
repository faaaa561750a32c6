import SysRust.Core.Brk

/-!
# Anonymous Mappings

`sys_mmap` of `syscall.rs`, over the state of `Core.Brk` with `MMAP_NEXT`.
The protection and the descriptor are arguments that the code does not read.
The range is zeroed through its virtual addresses, so a page without a
translation faults there: then there is no result.

## Main definitions

* `Regions`: The break and `MMAP_NEXT`.
* `mapPages`: The loop over the pages of the range.
* `memsetVirtual`: Zeroing through the tables.
* `sysMmap`: The system call.
-/

namespace SysRust.Brk

open Vmm

def EINVAL : Nat := asU64 (-22)

def ENOMEM : Nat := asU64 (-12)

/-- The break and `MMAP_NEXT`. -/
structure Regions extends Break where
  mmapNext : Nat

/-- Map `n` pages from `page` on. As in `growPages` only a missing frame
    stops the loop. -/
def mapPages (pml4 : Nat) : Nat → Nat → List Nat → Mem → Grown
  | 0, _, supply, m => { mem := m, supply := supply, done := true }
  | n + 1, page, supply, m =>
    match supply with
    | [] => { mem := m, supply := [], done := false }
    | phys :: rest =>
      if phys = 0 then { mem := m, supply := rest, done := false }
      else
        let r := mapPage pml4 page phys (PAGE_PRESENT ||| PAGE_WRITE ||| PAGE_USER) rest m
        mapPages pml4 n (u64 (page + 0x1000)) r.2 r.1

/-- Zero the `n` bytes at `virt`. -/
def memsetVirtual (pml4 : Nat) : Nat → Nat → Mem → Option Mem
  | 0, _, m => some m
  | n + 1, virt, m =>
    match hwTranslate m pml4 virt with
    | none => none
    | some phys => memsetVirtual pml4 n (u64 (virt + 1)) (store m phys 1 0)

/-- `MAP_FIXED`, with an address. -/
def fixed (addr flags : Nat) : Bool := addr ≠ 0 ∧ flags &&& 0x10 ≠ 0

/-- The system call: the state, what it returns and the unused supply.
    `MMAP_NEXT` moves before the first page is allocated. -/
def sysMmap (addr len flags : Nat) (supply : List Nat) (s : Regions) :
    Option (Regions × Nat × List Nat) :=
  if len = 0 then some (s, EINVAL, supply)
  else
    let pages := u64 (len + 0xFFF) / 0x1000
    let vaddr := if fixed addr flags then pageOf addr else pageOf (u64 (s.mmapNext + 0xFFF))
    let next := if fixed addr flags then s.mmapNext else u64 (vaddr + pages * 0x1000)
    let g := mapPages s.pml4 pages vaddr supply s.mem
    if g.done then
      (memsetVirtual s.pml4 (pages * 0x1000) vaddr g.mem).map fun m =>
        ({ s with mem := m, mmapNext := next }, vaddr, g.supply)
    else some ({ s with mem := g.mem, mmapNext := next }, ENOMEM, g.supply)

end SysRust.Brk
