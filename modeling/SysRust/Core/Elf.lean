import SysRust.Core.Mmap

/-!
# ELF Images

The loader of `elf.rs`. The file lies in memory, where the segments are also
written to, so a header is read from memory as the segments before it have
left it. The two loaders differ in the places of the fields and in two
messages; these make up a `Layout`.

`reads` lists the parts of the file that are read, as offset and length, in
the order of the code. Addresses of segments go through the page tables. A
page fault ends the call without a result, and what an aborted load has
written is not kept.

## Main definitions

* `Layout`, `elf32`, `elf64`: The fields of the headers.
* `Buffer`, `Loader`: The file and what the loader keeps.
* `segment`, `segments`: One program header, and the loop over them.
* `Check`, `runChecks`: The checks of the file header.
* `loadElf`, `loadFile`: The loaders and the function that chooses one.
-/

namespace SysRust.Elf

open Vmm Brk

def ELFDATA2LSB : UInt8 := 1
def ET_EXEC : Nat := 2
def PT_LOAD : Nat := 1

/-- Where a loader finds the fields it reads. `word` is the length of those
    that hold addresses. -/
structure Layout where
  ehdrSize : Nat
  machine : Nat
  word : Nat
  eEntry : Nat
  ePhoff : Nat
  ePhentsize : Nat
  ePhnum : Nat
  pOffset : Nat
  pVaddr : Nat
  pFilesz : Nat
  pMemsz : Nat
  tooSmall : String
  notMachine : String
  header : 20 ≤ ehdrSize ∧ eEntry + word ≤ ehdrSize ∧ ePhoff + word ≤ ehdrSize ∧
    ePhentsize + 2 ≤ ehdrSize ∧ ePhnum + 2 ≤ ehdrSize
  last : pOffset ≤ pMemsz ∧ pVaddr ≤ pMemsz ∧ pFilesz ≤ pMemsz

def elf32 : Layout where
  ehdrSize := 52
  machine := 3
  word := 4
  eEntry := 24
  ePhoff := 28
  ePhentsize := 42
  ePhnum := 44
  pOffset := 4
  pVaddr := 8
  pFilesz := 16
  pMemsz := 20
  tooSmall := "ELF: file too small for ELF32 header"
  notMachine := "ELF: not i386"
  header := by decide
  last := by decide

def elf64 : Layout where
  ehdrSize := 64
  machine := 62
  word := 8
  eEntry := 24
  ePhoff := 32
  ePhentsize := 54
  ePhnum := 56
  pOffset := 8
  pVaddr := 16
  pFilesz := 32
  pMemsz := 40
  tooSmall := "ELF: file too small for ELF64 header"
  notMachine := "ELF: not x86_64"
  header := by decide
  last := by decide

/-- The file, whose size is given in 32 bits, and the page tables in use. -/
structure Buffer where
  data : Nat
  size : Nat
  pml4 : Nat
  bound : size < 2 ^ 32

structure Phdr where
  vaddr : Nat
  memsz : Nat
  filesz : Nat
  offset : Nat

structure ElfInfo where
  entry : Nat
  brk : Nat
  deriving DecidableEq

structure Loader where
  mem : Mem
  supply : List Nat
  reads : List (Nat × Nat)
  highestAddr : Nat
  segmentsLoaded : Nat

/-- Why a load ends early. -/
inductive Stop where
  | err (msg : String)
  | fault
  deriving DecidableEq

/-- The field of `n` bytes at `off`. -/
def field (m : Mem) (b : Buffer) (off n : Nat) : Nat := load m (u64 (b.data + off)) n

def Loader.note (s : Loader) (rs : List (Nat × Nat)) : Loader := { s with reads := s.reads ++ rs }

/-- The fields of the program header at `off` that a load uses. -/
def phdr (k : Layout) (m : Mem) (b : Buffer) (off : Nat) : Phdr where
  vaddr := field m b (off + k.pVaddr) k.word
  memsz := field m b (off + k.pMemsz) k.word
  filesz := field m b (off + k.pFilesz) k.word
  offset := field m b (off + k.pOffset) k.word

/-- Map `n` zeroed pages from `page` on. -/
def mapZeroed (pml4 : Nat) : Nat → Nat → List Nat → Mem → Except Stop (Mem × List Nat)
  | 0, _, supply, m => .ok (m, supply)
  | _ + 1, _, [], _ => .error (.err "ELF: out of memory")
  | n + 1, page, phys :: rest, m =>
    if phys = 0 then .error (.err "ELF: out of memory")
    else
      let r := mapPage pml4 page phys (PAGE_PRESENT ||| PAGE_WRITE) rest m
      match memsetVirtual pml4 0x1000 page r.1 with
      | none => .error .fault
      | some m' => mapZeroed pml4 n (u64 (page + 0x1000)) r.2 m'

/-- The pages of a segment. The first 4 GB are mapped already. -/
def mapSegment (b : Buffer) (p : Phdr) (s : Loader) : Except Stop (Mem × List Nat) :=
  let startPage := pageOf p.vaddr
  let endPage := pageOf (u64 (p.vaddr + p.memsz + 0xFFF))
  if startPage ≥ BOOT_END then
    mapZeroed b.pml4 ((endPage - startPage) / 0x1000) startPage s.supply s.mem
  else .ok (s.mem, s.supply)

/-- Copy `n` bytes from the file, which is mapped to itself. -/
def memcpyVirtual (pml4 : Nat) : Nat → Nat → Nat → Mem → Option Mem
  | 0, _, _, m => some m
  | n + 1, dest, src, m =>
    match hwTranslate m pml4 dest with
    | none => none
    | some phys =>
      memcpyVirtual pml4 n (u64 (dest + 1)) (u64 (src + 1)) (store m phys 1 (m src).toNat)

/-- The bytes of the file, and zeros behind them. -/
def fillSegment (b : Buffer) (p : Phdr) (m : Mem) : Option Mem :=
  let copied :=
    if p.filesz > 0 then memcpyVirtual b.pml4 p.filesz p.vaddr (u64 (b.data + p.offset)) m
    else some m
  copied.bind fun m =>
    if p.memsz > p.filesz then
      memsetVirtual b.pml4 (p.memsz - p.filesz) (u64 (p.vaddr + p.filesz)) m
    else some m

/-- The segment of a header is loaded. -/
def loadSegment (b : Buffer) (p : Phdr) (s : Loader) : Loader × Option Stop :=
  match mapSegment b p s with
  | .error e => (s, some e)
  | .ok (m, supply) =>
    let s := s.note (if p.filesz > 0 then [(p.offset, p.filesz)] else [])
    match fillSegment b p m with
    | none => (s, some .fault)
    | some m =>
      let segEnd := u64 (p.vaddr + p.memsz)
      ({ s with
          mem := m
          supply := supply
          highestAddr := if segEnd > s.highestAddr then segEnd else s.highestAddr
          segmentsLoaded := s.segmentsLoaded + 1 }, none)

/-- The program header at `off`. -/
def segment (k : Layout) (b : Buffer) (off : Nat) (s : Loader) : Loader × Option Stop :=
  let s1 := s.note [(off, 4)]
  if field s.mem b off 4 ≠ PT_LOAD then (s1, none)
  else
    let p := phdr k s.mem b off
    let s2 := s1.note [(off + k.pVaddr, k.word), (off + k.pMemsz, k.word),
      (off + k.pFilesz, k.word), (off + k.pOffset, k.word)]
    if p.memsz = 0 then (s2, none)
    else if u64 (p.offset + p.filesz) > b.size then
      (s2, some (.err "ELF: segment extends past file"))
    else loadSegment b p s2

/-- The offset of header `i`, in the width of the class. -/
def phdrAt (k : Layout) (phoff phentsize i : Nat) : Nat := (phoff + i * phentsize) % 256 ^ k.word

/-- The loop, with `n` headers to go. -/
def segments (k : Layout) (b : Buffer) (phoff phentsize : Nat) :
    Nat → Nat → Loader → Loader × Option Stop
  | 0, _, s => (s, none)
  | n + 1, i, s =>
    match segment k b (phdrAt k phoff phentsize i) s with
    | (s', none) => segments k b phoff phentsize n (i + 1) s'
    | (s', some e) => (s', some e)

/-- A check of the file header: what it reads, whether it passes, and the
    message if it does not. -/
structure Check where
  reads : List (Nat × Nat)
  ok : Bool
  msg : String

/-- The checks one after the other, up to the first that does not pass. -/
def runChecks : List Check → Loader → Loader × Option String
  | [], s => (s, none)
  | c :: cs, s =>
    if c.ok = true then runChecks cs (s.note c.reads) else (s.note c.reads, some c.msg)

/-- The checks of a loader. The last comes after all fields have been read. -/
def elfChecks (k : Layout) (b : Buffer) (m : Mem) : List Check :=
  [⟨[], k.ehdrSize ≤ b.size, k.tooSmall⟩,
    ⟨[(16, 2)], field m b 16 2 = ET_EXEC, "ELF: not executable"⟩,
    ⟨[(18, 2)], field m b 18 2 = k.machine, k.notMachine⟩,
    ⟨[(k.eEntry, k.word), (k.ePhoff, k.word), (k.ePhnum, 2), (k.ePhentsize, 2)],
      field m b k.ePhnum 2 ≠ 0, "ELF: no program headers"⟩]

/-- The loop over all headers that the file announces. -/
def loadSegments (k : Layout) (b : Buffer) (s : Loader) : Loader × Option Stop :=
  segments k b (field s.mem b k.ePhoff k.word) (field s.mem b k.ePhentsize 2)
    (field s.mem b k.ePhnum 2) 0 s

/-- `load_elf32` and `load_elf64`. No result means a page fault. -/
def loadElf (k : Layout) (b : Buffer) (s : Loader) : Loader × Option (Except String ElfInfo) :=
  match runChecks (elfChecks k b s.mem) s with
  | (t, some msg) => (t, some (.error msg))
  | (t, none) =>
    match loadSegments k b t with
    | (t, some (.err msg)) => (t, some (.error msg))
    | (t, some .fault) => (t, none)
    | (t, none) =>
      if t.segmentsLoaded = 0 then (t, some (.error "ELF: no loadable segments"))
      else
        (t, some (.ok { entry := field s.mem b k.eEntry k.word
                        brk := pageOf (u64 (t.highestAddr + 0xFFF)) }))

/-- The checks of `load`, with those of `is_elf`, which stops at the first
    byte that differs. -/
def fileChecks (b : Buffer) (m : Mem) : List Check :=
  [⟨[], 16 ≤ b.size, "ELF: file too small"⟩,
    ⟨[(0, 1)], m (u64 (b.data + 0)) = 0x7F, "ELF: bad magic"⟩,
    ⟨[(1, 1)], m (u64 (b.data + 1)) = 0x45, "ELF: bad magic"⟩,
    ⟨[(2, 1)], m (u64 (b.data + 2)) = 0x4C, "ELF: bad magic"⟩,
    ⟨[(3, 1)], m (u64 (b.data + 3)) = 0x46, "ELF: bad magic"⟩,
    ⟨[(5, 1)], m (u64 (b.data + 5)) = ELFDATA2LSB, "ELF: not little-endian"⟩]

/-- The class byte. -/
def layoutOf (cls : UInt8) : Option Layout :=
  if cls = 1 then some elf32 else if cls = 2 then some elf64 else none

def start (m : Mem) (supply : List Nat) : Loader where
  mem := m
  supply := supply
  reads := []
  highestAddr := 0
  segmentsLoaded := 0

/-- `elf::load`. -/
def loadFile (b : Buffer) (m : Mem) (supply : List Nat) :
    Loader × Option (Except String ElfInfo) :=
  match runChecks (fileChecks b m) (start m supply) with
  | (s, some msg) => (s, some (.error msg))
  | (s, none) =>
    match layoutOf (m (u64 (b.data + 4))) with
    | some k => loadElf k b (s.note [(4, 1)])
    | none => (s.note [(4, 1)], some (.error "ELF: unsupported class"))

end SysRust.Elf
