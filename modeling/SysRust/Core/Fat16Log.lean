import SysRust.Core.Fat16

/-!
# The Entries of the FAT That Are Touched

`read_file` and `write_file` once more, with a record of every index at which
they read or write `FAT_TABLE`. The cached table is a raw pointer, so an index
outside of it is an access to whatever the heap has put behind it.

Each function is the one of `Core.Fat16` with the log beside its result, in
the order of the source. `fat_flush` copies the table to the disk sector by
sector, and a sector holds 256 entries.

`read_file` needs no bound in `Core.Fat16`, because what it returns when it
runs out of rounds does not matter there. Here it returns `none` in that case,
so that a result is a loop that has ended.

## Main definitions

* `Logged`: A result with the indices touched.
* `freeChainLog`, `writeLoopLog`, `fatFlushLog`, `readLoopLog`: The loops.
* `readFileLog`, `writeFileLog`: The interface.
-/

namespace SysRust.Fat16

/-- A result, and the indices at which the table was read or written. -/
abbrev Logged (α : Type) := α × List Nat

/-! ### The cached FAT -/

def fatNextLog (t : Mem) (entries cluster : Nat) : Logged Nat :=
  if entries ≤ cluster then (0xFFFF, []) else (fatAt t cluster, [cluster])

/-- The loop that releases a chain asks for the next cluster and then clears
    the entry. -/
def freeChainLog (entries : Nat) : Nat → Mem → Nat → Option (Logged Mem)
  | 0, _, _ => none
  | fuel + 1, t, cluster =>
    if IsCluster cluster then
      (freeChainLog entries fuel (setFat t cluster 0) (fatNextLog t entries cluster).1).map
        (fun r => (r.1, (fatNextLog t entries cluster).2 ++ cluster :: r.2))
    else some (t, [])

def fatScanLog (t : Mem) : Nat → Nat → Logged Nat
  | 0, _ => (0, [])
  | n + 1, i =>
    if fatAt t i = 0 then (i, [i])
    else ((fatScanLog t n (i + 1)).1, i :: (fatScanLog t n (i + 1)).2)

def fatAllocLog (entries : Nat) (t : Mem) : Logged (Mem × Nat) :=
  let r := fatScanLog t (u16 entries - 2) 2
  if r.1 = 0 then ((t, 0), r.2) else ((setFat t r.1 0xFFFF, r.1), r.2 ++ [r.1])

/-- One sector of the table. -/
def tableSector (s : Nat) : List Nat := List.range' (256 * s) 256

/-- Write `n` sectors of the table, giving up at the first failure. -/
def flushSectorsLog (ata : Nat → Nat → WriteOutcome) (lba : Nat) (t : Mem) :
    Nat → Nat → Disk → Logged (Disk × Bool)
  | 0, _, d => ((d, true), [])
  | n + 1, i, d =>
    let w := writeSector ata (lba + i) (window t (512 * i)) d
    if w.2 = false then ((w.1, false), tableSector i)
    else ((flushSectorsLog ata lba t n (i + 1) w.1).1,
      tableSector i ++ (flushSectorsLog ata lba t n (i + 1) w.1).2)

def flushCopiesLog (ata : Nat → Nat → WriteOutcome) (b : Bpb) (t : Mem) :
    Nat → Nat → Disk → Logged (Disk × Bool)
  | 0, _, d => ((d, true), [])
  | n + 1, f, d =>
    let w := flushSectorsLog ata (b.firstFatSector + f * b.fatSize16) t b.fatSize16 0 d
    if w.1.2 = false then ((w.1.1, false), w.2)
    else ((flushCopiesLog ata b t n (f + 1) w.1.1).1,
      w.2 ++ (flushCopiesLog ata b t n (f + 1) w.1.1).2)

def fatFlushLog (ata : Nat → Nat → WriteOutcome) (b : Bpb) (t : Mem) (d : Disk) :
    Logged (Disk × Bool) :=
  flushCopiesLog ata b t b.numFats 0 d

/-! ### Reading -/

/-- The read loop; `none` if `fuel` rounds are not enough. A cluster number
    that passes the test of the loop is no reserved one, so reading the
    cluster does not fail. -/
def readLoopLog (v : Fat16) : Nat → Nat → Nat → Nat → Mem → Mem → Option (Logged (Nat × Mem))
  | 0, remaining, cluster, offset, _, buf =>
    if 0 < remaining ∧ IsCluster cluster then none else some ((offset, buf), [])
  | fuel + 1, remaining, cluster, offset, clusterBuf, buf =>
    if 0 < remaining ∧ IsCluster cluster then
      (readCluster v.bpb v.disk cluster clusterBuf).bind (fun cb =>
        (readLoopLog v fuel (remaining - min v.bpb.clusterSize remaining)
          (fatNextLog v.fatTable v.fatEntries cluster).1
          (offset + min v.bpb.clusterSize remaining) cb
          (copy buf offset cb (min v.bpb.clusterSize remaining))).map (fun r =>
            (r.1, (fatNextLog v.fatTable v.fatEntries cluster).2 ++ r.2)))
    else some ((offset, buf), [])

def readFileLog (phys : Nat → Nat) (name : List UInt8) (buf : Mem) (maxSize : Nat) (v : Fat16) :
    Option (Logged (Fat16 × Mem × Int)) :=
  if v.ready = false then some ((v, buf, -1), [])
  else match findRootEntry v.bpb v.disk (nameTo83 name) with
    | none => some ((v, buf, -1), [])
    | some i =>
      let entry := readRootEntry v.bpb v.disk i
      if fileSizeOf entry = 0 then some ((v, buf, 0), [])
      else (Heap.kmalloc phys v.bpb.clusterSize v.heap).bind (fun r =>
        if r.2 = 0 then some (({ v with heap := r.1 }, buf, -1), [])
        else
          let remaining := min (fileSizeOf entry) maxSize
          (v.readLoopLog remaining remaining (firstClusterOf entry) 0 (window r.1.mem r.2)
            buf).bind (fun l =>
              (Heap.kfree r.2 r.1).map (fun h =>
                (({ v with heap := h }, l.1.2, i32 l.1.1), l.2))))

/-! ### Writing -/

def appendClusterLog (entries : Nat) (p : Cursor) : Logged (Option Cursor) :=
  let a := fatAllocLog entries p.table
  if a.1.2 = 0 then (none, a.2)
  else (some
    { table := if p.prevCluster ≠ 0 then setFat a.1.1 p.prevCluster a.1.2 else a.1.1
      disk := p.disk
      firstCluster := if p.firstCluster = 0 then a.1.2 else p.firstCluster
      prevCluster := a.1.2
      offset := p.offset },
    a.2 ++ if p.prevCluster ≠ 0 then [p.prevCluster] else [])

def writeLoopLog (ata : Nat → Nat → WriteOutcome) (b : Bpb) (entries : Nat) (buf : Mem)
    (size : Nat) : Nat → Cursor → Option (Logged (Cursor × Bool))
  | 0, _ => none
  | fuel + 1, p =>
    if p.offset < size then
      match (appendClusterLog entries p).1 with
      | none => some ((p, false), (appendClusterLog entries p).2)
      | some q =>
        let w := writeCluster ata b q.prevCluster (clusterData b buf size p.offset) q.disk
        if w.2 = false then some (({ q with disk := w.1 }, false), (appendClusterLog entries p).2)
        else (writeLoopLog ata b entries buf size fuel
          { q with disk := w.1, offset := u32 (p.offset + writeSize b size p.offset) }).map
            (fun r => (r.1, (appendClusterLog entries p).2 ++ r.2))
    else some ((p, true), [])

def finishWriteLog (ata : Nat → Nat → WriteOutcome) (index : Nat) (entry : Mem) (v : Fat16) :
    Logged (Fat16 × Int) :=
  let w := writeRootEntry ata v.bpb index entry v.disk
  if w.2 = false then (({ v with disk := w.1 }, -1), [])
  else
    let f := fatFlushLog ata v.bpb v.fatTable w.1
    (({ v with disk := f.1.1 }, if f.1.2 = false then -1 else 0), f.2)

def writeDataLog (phys : Nat → Nat) (ata : Nat → Nat → WriteOutcome) (buf : Mem) (size : Nat)
    (index : Nat) (entry : Mem) (v : Fat16) : Option (Logged (Fat16 × Int)) :=
  (Heap.kmalloc phys v.bpb.clusterSize v.heap).bind (fun r =>
    if r.2 = 0 then some (({ v with heap := r.1 }, -1), [])
    else (writeLoopLog ata v.bpb v.fatEntries buf size (2 ^ 16)
        { table := v.fatTable, disk := v.disk, firstCluster := 0, prevCluster := 0,
          offset := 0 }).bind (fun w =>
      (Heap.kfree r.2 r.1).map (fun h =>
        let v' := { v with fatTable := w.1.1.table, disk := w.1.1.disk, heap := h }
        if w.1.2 = false then ((v', -1), w.2)
        else
          let e := finishWriteLog ata index
            (setFileSize (setFirstCluster entry w.1.1.firstCluster) size) v'
          (e.1, w.2 ++ e.2))))

def writeFileLog (phys : Nat → Nat) (ata : Nat → Nat → WriteOutcome) (name : List UInt8)
    (buf : Mem) (size : Nat) (v : Fat16) : Option (Logged (Fat16 × Int)) :=
  if v.ready = false then some ((v, -1), [])
  else match findRootEntry v.bpb v.disk (nameTo83 name) with
    | some i =>
      let entry := readRootEntry v.bpb v.disk i
      (freeChainLog v.fatEntries chainBound v.fatTable (firstClusterOf entry)).bind (fun t =>
        (writeDataLog phys ata buf size i entry { v with fatTable := t.1 }).map
          (fun r => (r.1, t.2 ++ r.2)))
    | none =>
      match findFreeRootEntry v.bpb v.disk with
      | none => some ((v, -1), [])
      | some i => writeDataLog phys ata buf size i (newEntry (nameTo83 name)) v

end SysRust.Fat16
