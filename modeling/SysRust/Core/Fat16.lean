import SysRust.Core.Heap

/-!
# The FAT16 Driver

`fat16.rs` over the sectors of `ata.rs`: mounting a volume, and reading and
writing whole files of its root directory. The FAT is cached in memory as
the raw bytes of its sectors, which is what `FAT_TABLE` points to, and a
cluster number is a 16-bit load from them. Directory entries are 32-byte
windows into sectors and are rewritten in place.

A disk is what its sectors hold. `ata::read_sector` returns what is there.
`ata::write_sector` may fail: `ata k lba` is the outcome of the `k`-th write,
one to the sector `lba`. The source returns `-1` both when it gives up before
the data is sent and when the cache flush behind the data times out, so a
failed write may or may not have reached the disk.

The cluster buffer comes from the kernel heap, so the driver's state carries
the heap and `phys` gives the page allocator's answers to it, as there. What
the driver stores in its own blocks does not concern the heap and is kept
beside it.

The sector numbers and byte counts of the source are 32-bit and stay far
below that bound on every volume `init` accepts; only `offset` in the write
loop can reach it, with a `size` close to `2 ^ 32`, and is truncated there.

## Main definitions

* `WriteOutcome`, `Disk`, `writeSector`: The disk.
* `Bpb`, `Fat16`: The parameter block and the state of the driver.
* `nameTo83`: File names in 8.3 format.
* `readSectors`, `writeSectors`, `readCluster`, `writeCluster`: Runs of
  sectors.
* `fatAt`, `setFat`, `fatNext`, `fatAlloc`, `fatFlush`: The FAT.
* `readRootEntry`, `writeRootEntry`, `findRootEntry`, `findFreeRootEntry`: The
  root directory.
* `init`, `readFile`, `writeFile`: The interface. `freeChain`, `writeLoop`,
  `finishWrite` and `writeData` are the parts of `write_file`.
* `listFiles`: The regular files in order.
* `getFileCount`, `getFileName`, `getFileSize`: The regular files by number.
-/

namespace SysRust.Fat16

/-- How a sector write ends: done, given up before the data was sent, or with
    a timeout behind data that did reach the disk. -/
inductive WriteOutcome where
  | ok
  | failed
  | unflushed
deriving DecidableEq

/-- The sectors of a disk, and how many writes it has seen. -/
structure Disk where
  sector : Nat → Mem
  writes : Nat

/-- The disk behind a write whose data arrives. -/
def Disk.put (d : Disk) (lba : Nat) (buf : Mem) : Disk where
  sector := fun l => if l = lba then buf else d.sector l
  writes := d.writes + 1

/-- `ata::write_sector`, with whether it reports success. -/
def writeSector (ata : Nat → Nat → WriteOutcome) (lba : Nat) (buf : Mem) (d : Disk) :
    Disk × Bool :=
  match ata d.writes lba with
  | .ok => (d.put lba buf, true)
  | .failed => ({ d with writes := d.writes + 1 }, false)
  | .unflushed => (d.put lba buf, false)

/-- The fields of the boot parameter block that the driver uses. -/
structure Bpb where
  bytesPerSector : Nat
  sectorsPerCluster : Nat
  reservedSectors : Nat
  numFats : Nat
  rootEntryCount : Nat
  fatSize16 : Nat
deriving DecidableEq

namespace Bpb

/-- The fields as they stand in the boot sector. -/
def parse (sec : Mem) : Bpb where
  bytesPerSector := load sec 11 2
  sectorsPerCluster := load sec 13 1
  reservedSectors := load sec 14 2
  numFats := load sec 16 1
  rootEntryCount := load sec 17 2
  fatSize16 := load sec 22 2

def firstFatSector (b : Bpb) : Nat := b.reservedSectors

def rootDirSectors (b : Bpb) : Nat := (b.rootEntryCount * 32 + 511) / 512

def firstRootSector (b : Bpb) : Nat := b.firstFatSector + b.numFats * b.fatSize16

def firstDataSector (b : Bpb) : Nat := b.firstRootSector + b.rootDirSectors

/-- Bytes per cluster. -/
def clusterSize (b : Bpb) : Nat := b.sectorsPerCluster * 512

/-- The first sector of a cluster. -/
def clusterLba (b : Bpb) (cluster : Nat) : Nat :=
  b.firstDataSector + (cluster - 2) * b.sectorsPerCluster

end Bpb

/-! ### File names -/

def SPACE : UInt8 := 0x20
def DOT : UInt8 := 0x2E

def toUpper (c : UInt8) : UInt8 := if 0x61 ≤ c ∧ c ≤ 0x7A then c - 0x61 + 0x41 else c

/-- Fill up with spaces. -/
def padTo (n : Nat) (l : List UInt8) : List UInt8 := l ++ List.replicate (n - l.length) SPACE

/-- Up to eight characters before the first dot and up to three behind it,
    in upper case. -/
def nameTo83 (name : List UInt8) : List UInt8 :=
  padTo 8 (((name.takeWhile (fun c => c != DOT)).take 8).map toUpper) ++
    padTo 3 ((((name.dropWhile (fun c => c != DOT)).drop 1).take 3).map toUpper)

/-- The name as it is shown: without the spaces, and with a dot only if there
    is an extension. The caller reads it as a C string. -/
def nameFrom83 (fatName : List UInt8) : List UInt8 :=
  ((fatName.take 8).filter (fun c => c != SPACE) ++
    if fatName.getD 8 0 ≠ SPACE then
      DOT :: ((fatName.drop 8).take 3).filter (fun c => c != SPACE)
    else []).takeWhile (fun c => c != 0)

/-! ### Runs of sectors -/

/-- Read `n` sectors from `lba + i` on into the buffer, from its `i`-th
    sector on. -/
def readSectors (d : Disk) (lba : Nat) : Nat → Nat → Mem → Mem
  | 0, _, buf => buf
  | n + 1, i, buf => readSectors d lba n (i + 1) (copy buf (512 * i) (d.sector (lba + i)) 512)

/-- Write `n` sectors from `lba + i` on, giving up at the first failure. -/
def writeSectors (ata : Nat → Nat → WriteOutcome) (lba : Nat) (buf : Mem) :
    Nat → Nat → Disk → Disk × Bool
  | 0, _, d => (d, true)
  | n + 1, i, d =>
    if (writeSector ata (lba + i) (window buf (512 * i)) d).2 = false then
      ((writeSector ata (lba + i) (window buf (512 * i)) d).1, false)
    else writeSectors ata lba buf n (i + 1) (writeSector ata (lba + i) (window buf (512 * i)) d).1

/-- Read a cluster; `none` for the two reserved numbers. -/
def readCluster (b : Bpb) (d : Disk) (cluster : Nat) (buf : Mem) : Option Mem :=
  if cluster < 2 then none
  else some (readSectors d (b.clusterLba cluster) b.sectorsPerCluster 0 buf)

def writeCluster (ata : Nat → Nat → WriteOutcome) (b : Bpb) (cluster : Nat) (buf : Mem)
    (d : Disk) : Disk × Bool :=
  if cluster < 2 then (d, false)
  else writeSectors ata (b.clusterLba cluster) buf b.sectorsPerCluster 0 d

/-! ### The cached FAT -/

def fatAt (t : Mem) (cluster : Nat) : Nat := load t (2 * cluster) 2

def setFat (t : Mem) (cluster v : Nat) : Mem := store t (2 * cluster) 2 v

/-- The values that name a cluster with data. -/
def IsCluster (c : Nat) : Prop := 2 ≤ c ∧ c < 0xFFF8

instance (c : Nat) : Decidable (IsCluster c) := inferInstanceAs (Decidable (2 ≤ c ∧ c < 0xFFF8))

def fatNext (t : Mem) (entries cluster : Nat) : Nat :=
  if entries ≤ cluster then 0xFFFF else fatAt t cluster

/-- The first of the `n` entries from `i` on that is free, or `0`. -/
def fatScan (t : Mem) : Nat → Nat → Nat
  | 0, _ => 0
  | n + 1, i => if fatAt t i = 0 then i else fatScan t n (i + 1)

/-- Take the first free cluster and mark it as the end of a chain; `0` if the
    disk is full. The number of entries is truncated to 16 bits first. -/
def fatAlloc (entries : Nat) (t : Mem) : Mem × Nat :=
  if fatScan t (u16 entries - 2) 2 = 0 then (t, 0)
  else (setFat t (fatScan t (u16 entries - 2) 2) 0xFFFF, fatScan t (u16 entries - 2) 2)

/-- Write `n` copies of the FAT, from copy `f` on. -/
def flushCopies (ata : Nat → Nat → WriteOutcome) (b : Bpb) (t : Mem) :
    Nat → Nat → Disk → Disk × Bool
  | 0, _, d => (d, true)
  | n + 1, f, d =>
    if (writeSectors ata (b.firstFatSector + f * b.fatSize16) t b.fatSize16 0 d).2 = false then
      ((writeSectors ata (b.firstFatSector + f * b.fatSize16) t b.fatSize16 0 d).1, false)
    else flushCopies ata b t n (f + 1)
      (writeSectors ata (b.firstFatSector + f * b.fatSize16) t b.fatSize16 0 d).1

def fatFlush (ata : Nat → Nat → WriteOutcome) (b : Bpb) (t : Mem) (d : Disk) : Disk × Bool :=
  flushCopies ata b t b.numFats 0 d

/-- Mark the clusters of a chain as free, starting at `cluster`. Every round
    but the last clears an entry or meets a clear one and stops, so the bound
    `chainBound` on the rounds is never met. -/
def freeChain (entries : Nat) : Nat → Mem → Nat → Option Mem
  | 0, _, _ => none
  | fuel + 1, t, cluster =>
    if IsCluster cluster then
      freeChain entries fuel (setFat t cluster 0) (fatNext t entries cluster)
    else some t

def chainBound : Nat := 2 ^ 16 + 1

/-! ### The root directory -/

/-- The entry at `index`, as a window into its sector. -/
def readRootEntry (b : Bpb) (d : Disk) (index : Nat) : Mem :=
  window (d.sector (b.firstRootSector + index / 16)) (index % 16 * 32)

/-- Read the sector of the entry, replace the entry, and write it back. -/
def writeRootEntry (ata : Nat → Nat → WriteOutcome) (b : Bpb) (index : Nat) (entry : Mem)
    (d : Disk) : Disk × Bool :=
  writeSector ata (b.firstRootSector + index / 16)
    (copy (d.sector (b.firstRootSector + index / 16)) (index % 16 * 32) entry 32) d

def nameOf (entry : Mem) : List UInt8 := (List.range 11).map entry

def attrOf (entry : Mem) : UInt8 := entry 11

def firstClusterOf (entry : Mem) : Nat := load entry 26 2

def fileSizeOf (entry : Mem) : Nat := load entry 28 4

def setFirstCluster (entry : Mem) (c : Nat) : Mem := store entry 26 2 c

def setFileSize (entry : Mem) (size : Nat) : Mem := store entry 28 4 size

/-- The entry of a new file: all zero but for the name and the archive bit. -/
def newEntry (fatName : List UInt8) : Mem :=
  fill (copy (fun _ => 0) 0 (fun i => fatName.getD i 0) 11) 11 1 0x20

/-- Long file names and volume labels. -/
def IsSkipped (entry : Mem) : Prop := attrOf entry = 0x0F ∨ attrOf entry &&& 0x08 ≠ 0

instance (entry : Mem) : Decidable (IsSkipped entry) :=
  inferInstanceAs (Decidable (attrOf entry = 0x0F ∨ attrOf entry &&& 0x08 ≠ 0))

/-- Look for the name in the `n` entries from `i` on. A first byte of `0x00`
    ends the directory, `0xE5` is a deleted entry. -/
def findEntry (b : Bpb) (d : Disk) (fatName : List UInt8) : Nat → Nat → Option Nat
  | 0, _ => none
  | n + 1, i =>
    if readRootEntry b d i 0 = 0x00 then none
    else if readRootEntry b d i 0 = 0xE5 then findEntry b d fatName n (i + 1)
    else if IsSkipped (readRootEntry b d i) then findEntry b d fatName n (i + 1)
    else if nameOf (readRootEntry b d i) = fatName then some i
    else findEntry b d fatName n (i + 1)

def findRootEntry (b : Bpb) (d : Disk) (fatName : List UInt8) : Option Nat :=
  findEntry b d fatName b.rootEntryCount 0

def findFreeEntry (b : Bpb) (d : Disk) : Nat → Nat → Option Nat
  | 0, _ => none
  | n + 1, i =>
    if readRootEntry b d i 0 = 0x00 ∨ readRootEntry b d i 0 = 0xE5 then some i
    else findFreeEntry b d n (i + 1)

def findFreeRootEntry (b : Bpb) (d : Disk) : Option Nat := findFreeEntry b d b.rootEntryCount 0

end Fat16

/-- The state of the driver, with the disk it drives and the heap it draws
    on. -/
structure Fat16 where
  bpb : Fat16.Bpb
  fatTable : Mem
  fatEntries : Nat
  ready : Bool
  disk : Fat16.Disk
  heap : Heap

namespace Fat16

/-! ### Mounting -/

/-- Parse the boot sector and cache the first copy of the FAT. The table of an
    earlier mount is not given back to the heap. -/
def init (phys : Nat → Nat) (v : Fat16) : Option (Fat16 × Int) :=
  let b := Bpb.parse (v.disk.sector 0)
  if b.bytesPerSector ≠ 512 ∨ b.fatSize16 = 0 ∨ b.numFats = 0 then
    some ({ v with ready := false, bpb := b }, -1)
  else (Heap.kmalloc phys (b.fatSize16 * 512) v.heap).bind (fun r =>
    if r.2 = 0 then
      some ({ v with ready := false, bpb := b, fatEntries := b.fatSize16 * 512 / 2, heap := r.1 },
        -1)
    else some (
      { bpb := b
        fatTable := readSectors v.disk b.firstFatSector b.fatSize16 0 (window r.1.mem r.2)
        fatEntries := b.fatSize16 * 512 / 2
        ready := true
        disk := v.disk
        heap := r.1 }, 0))

/-! ### Reading -/

/-- Copy clusters to `buf` until nothing remains or the chain ends. A round
    takes at least one of the remaining bytes, so `remaining` rounds are
    enough. Returns the number of bytes copied. -/
def readLoop (v : Fat16) : Nat → Nat → Nat → Nat → Mem → Mem → Option (Nat × Mem)
  | 0, _, _, offset, _, buf => some (offset, buf)
  | fuel + 1, remaining, cluster, offset, clusterBuf, buf =>
    if 0 < remaining ∧ IsCluster cluster then
      (readCluster v.bpb v.disk cluster clusterBuf).bind (fun cb =>
        readLoop v fuel (remaining - min v.bpb.clusterSize remaining)
          (fatNext v.fatTable v.fatEntries cluster) (offset + min v.bpb.clusterSize remaining)
          cb (copy buf offset cb (min v.bpb.clusterSize remaining)))
    else some (offset, buf)

/-- Read a file into `buf`. Returns the state, the buffer and the number of
    bytes read, or `-1`. -/
def readFile (phys : Nat → Nat) (name : List UInt8) (buf : Mem) (maxSize : Nat) (v : Fat16) :
    Option (Fat16 × Mem × Int) :=
  if v.ready = false then some (v, buf, -1)
  else match findRootEntry v.bpb v.disk (nameTo83 name) with
    | none => some (v, buf, -1)
    | some i =>
      let entry := readRootEntry v.bpb v.disk i
      if fileSizeOf entry = 0 then some (v, buf, 0)
      else (Heap.kmalloc phys v.bpb.clusterSize v.heap).bind (fun r =>
        if r.2 = 0 then some ({ v with heap := r.1 }, buf, -1)
        else
          let remaining := min (fileSizeOf entry) maxSize
          match v.readLoop remaining remaining (firstClusterOf entry) 0 (window r.1.mem r.2)
            buf with
          | none => (Heap.kfree r.2 r.1).map (fun h => ({ v with heap := h }, buf, -1))
          | some (offset, out) =>
            (Heap.kfree r.2 r.1).map (fun h => ({ v with heap := h }, out, i32 offset)))

/-! ### Writing -/

/-- The variables of the write loop: the FAT and the disk, the first and the
    last cluster so far, and the number of bytes written. -/
structure Cursor where
  table : Mem
  disk : Disk
  firstCluster : Nat
  prevCluster : Nat
  offset : Nat

/-- Allocate a cluster and append it to the chain; `none` if the disk is
    full. -/
def appendCluster (entries : Nat) (p : Cursor) : Option Cursor :=
  if (fatAlloc entries p.table).2 = 0 then none
  else some
    { table :=
        if p.prevCluster ≠ 0 then
          setFat (fatAlloc entries p.table).1 p.prevCluster (fatAlloc entries p.table).2
        else (fatAlloc entries p.table).1
      disk := p.disk
      firstCluster :=
        if p.firstCluster = 0 then (fatAlloc entries p.table).2 else p.firstCluster
      prevCluster := (fatAlloc entries p.table).2
      offset := p.offset }

/-- How many bytes of the file go into the next cluster. -/
def writeSize (b : Bpb) (size offset : Nat) : Nat :=
  if u32 (offset + b.clusterSize) > size then size - offset else b.clusterSize

/-- The contents of the next cluster: bytes of the file, then zeros. -/
def clusterData (b : Bpb) (buf : Mem) (size offset : Nat) : Mem :=
  copy (fun _ => 0) 0 (window buf offset) (writeSize b size offset)

/-- Allocate and write clusters until all of the data is written. Every round
    takes a free cluster, so there are fewer rounds than clusters. Returns
    whether the loop ran to its end. -/
def writeLoop (ata : Nat → Nat → WriteOutcome) (b : Bpb) (entries : Nat) (buf : Mem)
    (size : Nat) : Nat → Cursor → Option (Cursor × Bool)
  | 0, _ => none
  | fuel + 1, p =>
    if p.offset < size then
      match appendCluster entries p with
      | none => some (p, false)
      | some q =>
        let w := writeCluster ata b q.prevCluster (clusterData b buf size p.offset) q.disk
        if w.2 = false then some ({ q with disk := w.1 }, false)
        else writeLoop ata b entries buf size fuel
          { q with disk := w.1, offset := u32 (p.offset + writeSize b size p.offset) }
    else some (p, true)

/-- The end of `write_file`: the directory entry, then the FAT. -/
def finishWrite (ata : Nat → Nat → WriteOutcome) (index : Nat) (entry : Mem) (v : Fat16) :
    Fat16 × Int :=
  let w := writeRootEntry ata v.bpb index entry v.disk
  if w.2 = false then ({ v with disk := w.1 }, -1)
  else
    let f := fatFlush ata v.bpb v.fatTable w.1
    ({ v with disk := f.1 }, if f.2 = false then -1 else 0)

/-- The body of `write_file` once the entry to write is settled. -/
def writeData (phys : Nat → Nat) (ata : Nat → Nat → WriteOutcome) (buf : Mem) (size : Nat)
    (index : Nat) (entry : Mem) (v : Fat16) : Option (Fat16 × Int) :=
  (Heap.kmalloc phys v.bpb.clusterSize v.heap).bind (fun r =>
    if r.2 = 0 then some ({ v with heap := r.1 }, -1)
    else (writeLoop ata v.bpb v.fatEntries buf size (2 ^ 16)
        { table := v.fatTable, disk := v.disk, firstCluster := 0, prevCluster := 0,
          offset := 0 }).bind (fun w =>
      (Heap.kfree r.2 r.1).map (fun h =>
        let v' := { v with fatTable := w.1.table, disk := w.1.disk, heap := h }
        if w.2 = false then (v', -1)
        else finishWrite ata index
          (setFileSize (setFirstCluster entry w.1.firstCluster) size) v')))

/-- Write a whole file. Returns the state and `0`, or `-1`. -/
def writeFile (phys : Nat → Nat) (ata : Nat → Nat → WriteOutcome) (name : List UInt8) (buf : Mem)
    (size : Nat) (v : Fat16) : Option (Fat16 × Int) :=
  if v.ready = false then some (v, -1)
  else match findRootEntry v.bpb v.disk (nameTo83 name) with
    | some i =>
      let entry := readRootEntry v.bpb v.disk i
      -- The old chain is freed in the cached FAT before anything is written.
      (freeChain v.fatEntries chainBound v.fatTable (firstClusterOf entry)).bind (fun t =>
        writeData phys ata buf size i entry { v with fatTable := t })
    | none =>
      match findFreeRootEntry v.bpb v.disk with
      | none => some (v, -1)
      | some i => writeData phys ata buf size i (newEntry (nameTo83 name)) v

/-! ### Enumeration -/

/-- Entries that enumeration passes over: deleted ones, long names and labels,
    and directories. -/
def IsPassed (entry : Mem) : Prop := entry 0 = 0xE5 ∨ IsSkipped entry ∨ attrOf entry &&& 0x10 ≠ 0

instance (entry : Mem) : Decidable (IsPassed entry) :=
  inferInstanceAs
    (Decidable (entry 0 = 0xE5 ∨ IsSkipped entry ∨ attrOf entry &&& 0x10 ≠ 0))

/-- The loop of `list_files`: the entries among the `n` from `i` on that are
    handed to the callback. -/
def listLoop (b : Bpb) (d : Disk) : Nat → Nat → List Nat
  | 0, _ => []
  | n + 1, i =>
    if readRootEntry b d i 0 = 0x00 then []
    else if IsPassed (readRootEntry b d i) then listLoop b d n (i + 1)
    else i :: listLoop b d n (i + 1)

/-- What the callback is told about an entry: the name as shown and the
    size. -/
def shownEntry (b : Bpb) (d : Disk) (i : Nat) : List UInt8 × Nat :=
  (nameFrom83 (nameOf (readRootEntry b d i)), fileSizeOf (readRootEntry b d i))

/-- The entries that `list_files` enumerates. -/
def listedEntries (v : Fat16) : List Nat :=
  if v.ready = false then [] else listLoop v.bpb v.disk v.bpb.rootEntryCount 0

/-- The calls of the callback. -/
def listFiles (v : Fat16) : List (List UInt8 × Nat) :=
  v.listedEntries.map (shownEntry v.bpb v.disk)

/-- Count the regular files among the `n` entries from `i` on. -/
def countFiles (b : Bpb) (d : Disk) : Nat → Nat → Nat → Nat
  | 0, _, count => count
  | n + 1, i, count =>
    if readRootEntry b d i 0 = 0x00 then count
    else if IsPassed (readRootEntry b d i) then countFiles b d n (i + 1) count
    else countFiles b d n (i + 1) (count + 1)

/-- The entry of the regular file with the number `index`, among the `n`
    entries from `i` on, if `count` files come before them. -/
def seekFile (b : Bpb) (d : Disk) (index : Nat) : Nat → Nat → Nat → Option Nat
  | 0, _, _ => none
  | n + 1, i, count =>
    if readRootEntry b d i 0 = 0x00 then none
    else if IsPassed (readRootEntry b d i) then seekFile b d index n (i + 1) count
    else if count = index then some i
    else seekFile b d index n (i + 1) (count + 1)

/-- The loop that `get_file_name` and `get_file_size` have in common. -/
def fileEntry (b : Bpb) (d : Disk) (index : Nat) : Option Nat :=
  seekFile b d index b.rootEntryCount 0 0

def getFileCount (v : Fat16) : Nat :=
  if v.ready = false then 0 else countFiles v.bpb v.disk v.bpb.rootEntryCount 0 0

/-- The name of a regular file; `none` is a return of `-1`. -/
def getFileName (index bufSize : Nat) (v : Fat16) : Option (List UInt8) :=
  if v.ready = false ∨ bufSize < 13 then none
  else (fileEntry v.bpb v.disk index).map (fun i =>
    nameFrom83 (nameOf (readRootEntry v.bpb v.disk i)))

def getFileSize (index : Nat) (v : Fat16) : Nat :=
  if v.ready = false then 0
  else
    match fileEntry v.bpb v.disk index with
    | none => 0
    | some i => fileSizeOf (readRootEntry v.bpb v.disk i)

end SysRust.Fat16
