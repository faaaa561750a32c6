import SysRust.Core.Vmm

/-!
# The Program Break

`sys_brk` of `syscall.rs`. The first 4 GB are mapped by the boot tables, so
growing the break maps pages only from there on. Which pages these are is
computed from the old break rounded down and the new one rounded up.

As in `Core.Vmm`, `supply` lists what the next calls of `pmm::alloc_page`
return, and a function gives back what it did not use. The frame of a page
and the tables that `map_page` needs for it are taken from the same list, in
the order of the code.

The loop `while page < end_page` is a recursion on the number of pages that
are left; both ends are multiples of the page size.

## Main definitions

* `Break`: Memory and `CURRENT_BRK`.
* `pageOf`, `endPageOf`: Where the loop starts and ends.
* `growPages`: The loop.
* `sysBrk`: The system call.
-/

namespace SysRust.Brk

open Vmm

/-- Memory, with the page tables at `pml4`, and `CURRENT_BRK`. -/
structure Break where
  mem : Mem
  pml4 : Nat
  currentBrk : Nat

/-- The end of what the boot tables map. -/
def BOOT_END : Nat := 0x100000000

/-- The page of an address: its low twelve bits cleared. -/
def pageOf (addr : Nat) : Nat := addr / 0x1000 * 0x1000

/-- The first page behind the new break. The addition wraps around. -/
def endPageOf (addr : Nat) : Nat := pageOf (u64 (addr + 0xFFF))

/-- What the loop leaves: memory, the unused supply, and whether it ran to
    its end. -/
structure Grown where
  mem : Mem
  supply : List Nat
  done : Bool

/-- Map the next `n` pages, except those of the first 4 GB. The loop stops
    when there is no frame; it does not see whether `map_page` found room for
    its tables. -/
def growPages (pml4 : Nat) : Nat → Nat → List Nat → Mem → Grown
  | 0, _, supply, m => { mem := m, supply := supply, done := true }
  | n + 1, page, supply, m =>
    if BOOT_END ≤ page then
      match supply with
      | [] => { mem := m, supply := [], done := false }
      | phys :: rest =>
        if phys = 0 then { mem := m, supply := rest, done := false }
        else
          let r := mapPage pml4 page phys (PAGE_PRESENT ||| PAGE_WRITE) rest m
          growPages pml4 n (page + 0x1000) r.2 r.1
    else growPages pml4 n (page + 0x1000) supply m

/-- How many turns the loop takes. -/
def pageCount (currentBrk addr : Nat) : Nat := (endPageOf addr - pageOf currentBrk) / 0x1000

/-- The system call: the state, what it returns and the unused supply. -/
def sysBrk (addr : Nat) (supply : List Nat) (s : Break) : Break × Nat × List Nat :=
  if addr = 0 then (s, s.currentBrk, supply)
  else if addr < s.currentBrk then (s, s.currentBrk, supply)
  else if BOOT_END ≤ addr then
    let g := growPages s.pml4 (pageCount s.currentBrk addr) (pageOf s.currentBrk) supply s.mem
    if g.done then ({ s with mem := g.mem, currentBrk := addr }, addr, g.supply)
    else ({ s with mem := g.mem }, s.currentBrk, g.supply)
  else ({ s with currentBrk := addr }, addr, supply)

end SysRust.Brk
