import SysRust.Core.Fat16Vfs
import SysRust.Lib.Service
import SysRust.Theory.Fat16.RoundTrip
import SysRust.Theory.Files.Buffer

/-!
# Files on Disk as Byte Strings

Reading and writing a file below `/disk`, compared with the byte string that
a file in memory is. The driver only knows whole files, so `fat16_vfs_write`
reads the old contents into a buffer, puts the new data over them and writes
everything back. There are two ways in which this goes wrong without an
error. A write at offset zero does not read the old contents at all, and what
it leaves is the new data and nothing else. And for the other offsets, when
there is no memory for the cluster buffer of the reading, the old contents
are taken to be zeros.

`Keeps` says that neither of the two matters for a call. The service then is
the one of a byte string; and each call that does not keep to it leaves a
file that is not the one of the byte string.

## Main definitions

* `Call`, `DiskFile`, `calls`: The calls that succeed.
* `byteFile`: The same calls on a byte string.
* `Holds`, `OnDisk`: The volume holds the file.
* `Keeps`: The old contents that the write does not replace are kept.

## Theorems

* `readFile_cases`, `writeFile_holds`: The driver's functions on a file.
* `read_step`, `write_start`, `write_inside`: One call.
* `calls_refine`: All traces, and which steps are steps of a byte string.
* `short_write`: A file that loses its end.
-/

namespace SysRust.Fat16Vfs

open Fat16 Files List Option

/-! ### The service and its model -/

/-- Reading and writing, with the answers of the page allocator and of the
    disk. -/
inductive Call where
  | read (offset size : Nat) (phys : Nat → Nat → Nat)
  | write (offset size : Nat) (data : Mem) (phys : Nat → Nat → Nat)
      (ata : Nat → Nat → WriteOutcome)

/-- A volume and the node of one of its files. -/
structure DiskFile where
  fat : Fat16
  node : FileNode

/-- The code returned and the bytes read. -/
abbrev Answer := Int × List UInt8

def serveCall (s : DiskFile) : Call → Option (DiskFile × Answer)
  | .read offset size phys => (fat16VfsRead phys s.node offset size s.fat).map (fun r =>
    ({ s with fat := r.1 }, r.2))
  | .write offset size data phys ata =>
    (fat16VfsWrite phys ata s.node offset size data s.fat).map (fun r =>
      ({ fat := r.1, node := r.2.1 }, r.2.2, []))

/-- The arguments are 32-bit, and so is the end of a write. -/
def InRange : Call → Prop
  | .read offset size _ => offset < 2 ^ 32 ∧ size < 2 ^ 32
  | .write offset size _ _ _ => offset + size < 2 ^ 32

/-- The calls that succeed. -/
def calls : Service DiskFile Call Answer where
  step := fun s o r t => InRange o ∧ serveCall s o = some (t, r) ∧ 0 ≤ r.1

/-- What the calls mean for a byte string. -/
def byteFile : Service (List UInt8) Call Answer where
  step := fun file o r file' =>
    match o with
    | .read offset size _ => file' = file ∧
        r = ((((file.drop offset).take size).length : Int), (file.drop offset).take size)
    | .write offset size data _ _ =>
      file' = writeAt file offset (bytes data 0 size) ∧ r = ((size : Int), [])

/-! ### The file on the volume -/

/-- The entry `i` is found under the name of the node and has its size, and
    the clusters `l` of its chain hold the bytes of the file. -/
structure Holds (v : Fat16) (node : FileNode) (file : List UInt8) (i : Nat) (l : List Nat) :
    Prop where
  ready : v.ready = true
  entries : v.fatEntries % 256 = 0
  small : v.bpb.clusterSize < 2 ^ 17
  find : findRootEntry v.bpb v.disk (nameTo83 node.name) = some i
  chain : FileChain v.fatTable v.fatEntries (firstClusterOf (readRootEntry v.bpb v.disk i)) l
  size : fileSizeOf (readRootEntry v.bpb v.disk i) = node.size
  fits : node.size ≤ v.bpb.clusterSize * l.length
  bytes : file = bytes (fileMem v.bpb v.disk l) 0 node.size

/-- The volume holds the file, and its heap is one that clients use as they
    should. -/
structure OnDisk (s : DiskFile) (file : List UInt8) : Prop where
  holds : ∃ i l, Holds s.fat s.node file i l
  heap : ∃ live, Heap.sessions.Reachable { heap := s.fat.heap, live := live }

variable {live : List Nat} {name : List UInt8}

section Held

variable {v v' : Fat16} {node : FileNode} {file file' : List UInt8} {i j : Nat} {l l' : List Nat}
  {phys : Nat → Nat} {ata : Nat → Nat → WriteOutcome} {buf out : Mem} {n : Int} {m : Nat}

theorem Holds.length (h : Holds v node file i l) : file.length = node.size := by
  rw [h.bytes, length_bytes]

/-- The heap has no part in what the volume holds. -/
theorem Holds.withHeap (h : Holds v node file i l) (g : Heap) :
    Holds { v with heap := g } node file i l :=
  ⟨h.ready, h.entries, h.small, h.find, h.chain, h.size, h.fits, h.bytes⟩

/-- The volume holds one file under the name. -/
theorem Holds.unique (h : Holds v node file i l) (h' : Holds v node file' j l') : file = file' := by
  have hij : i = j := some.inj (h.find.symm.trans h'.find)
  subst hij
  have hl : l = l' := chain_unique h.chain.chain h'.chain.chain
  subst hl
  exact h.bytes.trans h'.bytes.symm

/-- Reading the file gives its first bytes, or fails for lack of a cluster
    buffer. -/
theorem readFile_cases (h : Holds v node file i l)
    (hr : v.readFile phys node.name buf m = some (v', out, n)) :
    (∃ g, v' = { v with heap := g }) ∧
      ((out = copy buf 0 (fileMem v.bpb v.disk l) (min node.size m) ∧ n = i32 (min node.size m) ∧
          (node.size = 0 ∨ ∀ g, Heap.kmalloc phys v.bpb.clusterSize v.heap ≠ some (g, 0))) ∨
        (out = buf ∧ n = -1 ∧ node.size ≠ 0 ∧
          ∃ g, Heap.kmalloc phys v.bpb.clusterSize v.heap = some (g, 0))) := by
  have hready : ¬ v.ready = false := by rw [h.ready]; exact Bool.noConfusion
  rw [readFile, if_neg hready] at hr
  simp only [h.find, h.size] at hr
  by_cases hz : node.size = 0
  · rw [if_pos hz, some.injEq, Prod.mk.injEq, Prod.mk.injEq] at hr
    rcases hr with ⟨rfl, rfl, rfl⟩
    refine ⟨⟨v.heap, rfl⟩, Or.inl ⟨?_, ?_, Or.inl hz⟩⟩
    · rw [hz, Nat.zero_min, copy_zero]
    · rw [hz, Nat.zero_min]
      rfl
  rw [if_neg hz] at hr
  rcases bind_eq_some_iff.mp hr with ⟨⟨h1, p⟩, hk, hr⟩
  by_cases hp : p = 0
  · subst hp
    rcases hr with ⟨rfl, rfl, rfl⟩
    exact ⟨⟨h1, rfl⟩, Or.inr ⟨rfl, rfl, hz, h1, hk⟩⟩
  · have hpos := kmalloc_pos hk hp
    have hfits := h.fits
    have hmin : min (min node.size m) (v.bpb.clusterSize * l.length) = min node.size m := by omega
    simp only [if_neg hp, readLoop_spec v h.chain hpos (Nat.le_refl _), hmin, Nat.zero_add] at hr
    rcases map_eq_some_iff.mp hr with ⟨h2, _, hr⟩
    rcases hr with ⟨rfl, rfl, rfl⟩
    refine ⟨⟨h2, rfl⟩, Or.inl ⟨rfl, rfl, Or.inr (fun g hg => hp ?_)⟩⟩
    rw [hk, some.injEq, Prod.mk.injEq] at hg
    exact hg.2

/-- Reading borrows its buffer. -/
theorem readFile_heap (hs : Heap.sessions.Reachable { heap := v.heap, live := live })
    (hr : v.readFile phys name buf m = some (v', out, n)) :
    Heap.sessions.Reachable { heap := v'.heap, live := live } := by
  rcases readFile_buffer hr with rfl | ⟨h1, p, hk, ⟨rfl, rfl⟩ | ⟨hp, h2, hf, rfl⟩⟩
  · exact hs
  · exact Heap.reachable_kmalloc hs hk
  · exact Heap.reachable_borrow hs hk hp hf

/-- Writing borrows its buffer. -/
theorem writeFile_heap (hs : Heap.sessions.Reachable { heap := v.heap, live := live })
    (hw : v.writeFile phys ata name buf m = some (v', n)) :
    Heap.sessions.Reachable { heap := v'.heap, live := live } := by
  rcases writeFile_cases hw with ⟨rfl, _⟩ | ⟨i, entry, t, _, hd⟩
  · exact hs
  rcases writeData_cases hd with ⟨h1, p, hk, ⟨rfl, rfl, _⟩ | ⟨hp, w, h2, _, hf, hend⟩⟩
  · exact Heap.reachable_kmalloc hs hk
  · have hback := Heap.reachable_borrow hs hk hp hf
    rcases hend with ⟨_, _, rfl⟩ | ⟨_, hfin⟩
    · exact hback
    · rcases finishWrite_eq hfin with ⟨d, rfl⟩
      exact hback

/-- The code is `0` or `-1`. -/
theorem writeFile_code (hw : v.writeFile phys ata name buf m = some (v', n)) : n = 0 ∨ n = -1 := by
  rcases writeFile_cases hw with ⟨_, hn⟩ | ⟨i, entry, t, _, hd⟩
  · exact Or.inr hn
  rcases writeData_cases hd with ⟨h1, p, _, ⟨_, _, hn⟩ | ⟨_, w, h2, _, _, ⟨_, hn, _⟩ | ⟨_, hfin⟩⟩⟩
  · exact Or.inr hn
  · exact Or.inr hn
  · have hcode := finishWrite_code ata i (filled entry w.1.firstCluster m)
      { v with fatTable := w.1.table, disk := w.1.disk, heap := h2 }
    rw [← hfin] at hcode
    exact hcode

/-- After a write the volume holds the data under the same name. -/
theorem writeFile_holds (h : Holds v node file i l) (hm : m < 2 ^ 31)
    (hw : v.writeFile phys ata node.name buf m = some (v', 0)) :
    ∃ j l', Holds v' { node with size := m } (bytes buf 0 m) j l' := by
  have hsmall := h.small
  rcases writeFile_cases hw with ⟨_, hn⟩ | ⟨j, entry, t, ht, hd⟩
  · exact absurd hn (by decide)
  rcases writeData_wrote hd ht.lt (by simp only; omega) with ⟨p, l', _, _, hwr, _, _, _⟩
  have hbpb : v'.bpb = v.bpb := hwr.bpb
  -- The name was found before, so it starts like the name of a file.
  rcases findRootEntry_some.mp h.find with ⟨hlist, hname, _⟩
  have hfirst := nameOf_head hname
  have hfind : findRootEntry v.bpb v'.disk (nameTo83 node.name) = some j := by
    refine target_find ht (nameTo83_length _) (fun x hx => ?_) (fun x hx => ?_) hwr.dir
    · rw [hfirst, some.injEq] at hx
      exact hx ▸ hlist.2.1 i (Nat.le_refl _)
    · rw [hfirst, some.injEq] at hx
      exact hx ▸ hlist.2.2.1
  have hcluster : firstClusterOf (readRootEntry v'.bpb v'.disk j) = p.firstCluster := by
    rw [hbpb]
    exact dirUpdate_cluster hwr.dir hwr.grown.first_lt
  have hsize : fileSizeOf (readRootEntry v'.bpb v'.disk j) = m := by
    rw [hbpb]
    exact dirUpdate_size hwr.dir (by omega)
  refine ⟨j, l', ⟨hwr.ready.trans h.ready, ?_, ?_, ?_, ?_, hsize, ?_, ?_⟩⟩
  · rw [hwr.entries]
    exact h.entries
  · rw [hbpb]
    exact h.small
  · rw [hbpb]
    exact hfind
  · rw [hwr.table, hwr.entries, hcluster]
    exact grown_chain hwr.grown h.entries
  · rw [hbpb]
    exact hwr.holds.1
  · rw [hbpb]
    exact (bytes_congr (agreeOn_mono hwr.holds.2 (Nat.le_refl _) (by omega))).symm

/-! ### One call -/

/-- What `takeBuffer` returns. -/
theorem takeBuffer_cases {size p : Nat} (h : takeBuffer phys size v = some (v', p)) :
    ∃ h1, v' = { v with heap := h1 } ∧ Heap.kmalloc phys size v.heap = some (h1, p) ∧
      (p ≠ 0 → size ≤ Heap.alignSize size) := by
  rcases bind_eq_some_iff.mp h with ⟨⟨h1, q⟩, hk, h⟩
  by_cases hbad : q ≠ 0 ∧ Heap.alignSize size < size
  · rw [if_pos hbad] at h
    cases h
  · rw [if_neg hbad, some.injEq, Prod.mk.injEq] at h
    rcases h with ⟨rfl, rfl⟩
    exact ⟨h1, rfl, hk, fun hq => Nat.not_lt.mp (fun hlt => hbad ⟨hq, hlt⟩)⟩

/-- The heap never has a buffer of `2 ^ 31` bytes. -/
theorem takeBuffer_lt {size p : Nat} (hs : Heap.sessions.Reachable { heap := v.heap, live := live })
    (h : takeBuffer phys size v = some (v', p)) (hp : p ≠ 0) : size < 2 ^ 31 := by
  rcases takeBuffer_cases h with ⟨h1, _, hk, hle⟩
  rcases Heap.rep_reachable hs with ⟨a, hrep⟩
  have hmax := Heap.kmalloc_le hrep.heap hk hp
  simp only [Heap.HEAP_MAX_PAGES, Heap.VMM_PAGE_SIZE] at hmax
  omega

theorem readExisting_eq (h : readExisting phys node buf v = some (v', out)) :
    (node.size = 0 ∧ v' = v ∧ out = buf) ∨
      ∃ n, v.readFile phys node.name buf node.size = some (v', out, n) := by
  rw [readExisting] at h
  by_cases hpos : node.size > 0
  · rw [if_pos hpos] at h
    rcases map_eq_some_iff.mp h with ⟨⟨v3, out', n⟩, hread, heq⟩
    rw [Prod.mk.injEq] at heq
    rcases heq with ⟨rfl, rfl⟩
    exact Or.inr ⟨n, hread⟩
  · rw [if_neg hpos, some.injEq, Prod.mk.injEq] at h
    exact Or.inl ⟨by omega, h.1.symm, h.2.symm⟩

end Held

section Step

variable {s : DiskFile} {file : List UInt8} {offset size : Nat} {phys : Nat → Nat → Nat}
  {ata : Nat → Nat → WriteOutcome} {data : Mem} {v' : Fat16} {node' : FileNode} {code : Int}
  {new : List UInt8}

/-- A read that succeeds returns a part of the byte string. -/
theorem read_step (hs : OnDisk s file)
    (h : fat16VfsRead phys s.node offset size s.fat = some (v', code, new)) (hcode : 0 ≤ code) :
    OnDisk { s with fat := v' } file ∧ code = ((file.drop offset).take size).length ∧
      new = (file.drop offset).take size := by
  rcases hs.holds with ⟨i, l, hold⟩
  rcases hs.heap with ⟨live, hlive⟩
  have hlen := hold.length
  rw [fat16VfsRead] at h
  -- Behind the end of the file nothing is read.
  have hnone : file.length ≤ offset → v' = s.fat ∧ code = 0 ∧ new = [] →
      OnDisk { s with fat := v' } file ∧ code = ((file.drop offset).take size).length ∧
        new = (file.drop offset).take size := by
    rintro hle ⟨rfl, rfl, rfl⟩
    rw [drop_eq_nil_of_le hle, take_nil]
    exact ⟨hs, rfl, rfl⟩
  by_cases hz : s.node.size = 0
  · rw [if_pos hz, some.injEq, Prod.mk.injEq, Prod.mk.injEq] at h
    exact hnone (by omega) ⟨h.1.symm, h.2.1.symm, h.2.2.symm⟩
  rw [if_neg hz] at h
  by_cases hend : offset ≥ s.node.size
  · rw [if_pos hend, some.injEq, Prod.mk.injEq, Prod.mk.injEq] at h
    exact hnone (by omega) ⟨h.1.symm, h.2.1.symm, h.2.2.symm⟩
  rw [if_neg hend] at h
  rcases bind_eq_some_iff.mp h with ⟨⟨v1, p⟩, htake, h⟩
  rcases takeBuffer_cases htake with ⟨h1, rfl, hk, _⟩
  by_cases hp : p = 0
  · simp only [if_pos hp, some.injEq, Prod.mk.injEq] at h
    exact absurd hcode (h.2.1 ▸ by decide)
  have hlt := takeBuffer_lt hlive htake hp
  simp only [if_neg hp] at h
  rcases bind_eq_some_iff.mp h with ⟨⟨v2, out, n⟩, hread, h⟩
  rcases map_eq_some_iff.mp h with ⟨h3, hfree, h⟩
  have hheld := Heap.reachable_kmalloc hlive hk
  rw [if_neg hp] at hheld
  have hback := Heap.reachable_kfree (readFile_heap hheld hread) hfree
  rcases readFile_cases (hold.withHeap h1) hread with
    ⟨⟨g, rfl⟩, ⟨hout, hn, _⟩ | ⟨_, hn, _, _⟩⟩
  swap
  · simp only [hn, show (-1 : Int) < 0 by decide, if_true, Prod.mk.injEq] at h
    exact absurd hcode (h.2.1 ▸ by decide)
  rw [Nat.min_self] at hn hout
  rw [i32_of_lt hlt] at hn
  have hcut : (if size > s.node.size - offset then s.node.size - offset else size) =
      min size (s.node.size - offset) := by
    rw [min_comm, min_def_lt]
  simp only [hn, Int.toNat_natCast, Int.not_lt.mpr (Int.natCast_nonneg _), if_false, if_neg hend,
    hcut, Prod.mk.injEq] at h
  rcases h with ⟨rfl, rfl, rfl⟩
  have hpart : (file.drop offset).take size =
      bytes (fileMem s.fat.bpb s.fat.disk l) offset (min size (s.node.size - offset)) := by
    rw [hold.bytes, bytes_drop_take, Nat.zero_add]
  refine ⟨⟨⟨i, l, hold.withHeap h3⟩, live, hback⟩, ?_, ?_⟩
  · rw [hpart, length_bytes, i32_of_lt (by omega)]
  · rw [hpart, hout]
    refine bytes_congr (fun b _ hb => ?_)
    rw [copy_inside (by omega), Nat.sub_zero]

/-- A write at offset zero that succeeds leaves the data as the file. -/
theorem write_start (hs : OnDisk s file) (hsize : size < 2 ^ 32)
    (h : fat16VfsWrite phys ata s.node 0 size data s.fat = some (v', node', code))
    (hcode : 0 ≤ code) :
    OnDisk { fat := v', node := node' } (bytes data 0 size) ∧ code = size := by
  rcases hs.holds with ⟨i, l, hold⟩
  rcases hs.heap with ⟨live, hlive⟩
  rcases map_eq_some_iff.mp h with ⟨⟨w, n⟩, hw, h⟩
  rcases writeFile_code hw with rfl | rfl
  swap
  · simp only [show (-1 : Int) < 0 by decide, if_true, Prod.mk.injEq] at h
    exact absurd hcode (h.2.2 ▸ by decide)
  rcases h with ⟨rfl, rfl, rfl⟩
  have hlt : size < 2 ^ 31 := lt_of_i32_nonneg hsize hcode
  rcases writeFile_holds hold hlt hw with ⟨j, l', hnew⟩
  exact ⟨⟨⟨j, l', hnew⟩, live, writeFile_heap hlive hw⟩, i32_of_lt hlt⟩

/-- The cluster buffer for reading the old contents can be had, once there is
    a buffer for the new ones. -/
def CanRead (s : DiskFile) (offset size : Nat) (phys : Nat → Nat → Nat) : Prop :=
  ∀ h p, Heap.kmalloc (phys 0) (newSize s.node offset size) s.fat.heap = some (h, p) →
    ∀ g, Heap.kmalloc (phys 1) s.fat.bpb.clusterSize h ≠ some (g, 0)

/-- The buffer before the new data is put over it: the old contents, or zeros
    if they could not be read, and zeros behind them. -/
theorem readExisting_cases {i : Nat} {l : List Nat} {v1 v2 : Fat16} {out block : Mem} {total : Nat}
    {phys1 : Nat → Nat} (hold : Holds v1 s.node file i l) (htotal : s.node.size ≤ total)
    (h : readExisting phys1 s.node (fill block 0 total 0) v1 = some (v2, out)) :
    (∃ g, v2 = { v1 with heap := g }) ∧ (∀ b, s.node.size ≤ b → b < total → out b = 0) ∧
      ((bytes out 0 s.node.size = file ∧ (s.node.size = 0 ∨
          ∀ g, Heap.kmalloc phys1 v1.bpb.clusterSize v1.heap ≠ some (g, 0))) ∨
        (bytes out 0 s.node.size = List.replicate s.node.size 0 ∧
          ∃ g, Heap.kmalloc phys1 v1.bpb.clusterSize v1.heap = some (g, 0))) := by
  have hfill : ∀ b, b < total → fill block 0 total 0 b = 0 := fun b hb =>
    fill_inside (by omega)
  rcases readExisting_eq h with ⟨hz, rfl, rfl⟩ | ⟨n, hread⟩
  · refine ⟨⟨v2.heap, rfl⟩, fun b _ hb => hfill b hb, Or.inl ⟨?_, Or.inl hz⟩⟩
    rw [hold.bytes, hz]
    rfl
  rcases readFile_cases hold hread with ⟨hv, ⟨hout, _, hbuf⟩ | ⟨hout, _, _, hnone⟩⟩
  · rw [Nat.min_self] at hout
    refine ⟨hv, fun b hlo hb => ?_, Or.inl ⟨?_, hbuf⟩⟩
    · rw [hout, copy_outside (by omega)]
      exact hfill b hb
    · rw [hold.bytes, hout]
      refine bytes_congr (fun b _ hb => ?_)
      rw [copy_inside (by omega), Nat.sub_zero]
  · refine ⟨hv, fun b _ hb => hout ▸ hfill b hb, Or.inr ⟨?_, hnone⟩⟩
    rw [hout, eq_replicate_iff, length_bytes]
    refine ⟨rfl, fun x hx => ?_⟩
    rcases mem_map.mp hx with ⟨k, hk, rfl⟩
    rw [mem_range] at hk
    rw [window, Nat.zero_add]
    exact hfill k (by omega)

/-- A write at another offset that succeeds puts the data over the old
    contents, or over zeros if they could not be read. -/
theorem write_inside (hs : OnDisk s file) (hoff : offset ≠ 0) (hend : offset + size < 2 ^ 32)
    (h : fat16VfsWrite phys ata s.node offset size data s.fat = some (v', node', code))
    (hcode : 0 ≤ code) :
    ∃ old : List UInt8,
      OnDisk { fat := v', node := node' } (writeAt old offset (bytes data 0 size)) ∧
      code = size ∧
      ((old = file ∧ (file = [] ∨ CanRead s offset size phys)) ∨
        (old = List.replicate file.length 0 ∧ ¬ CanRead s offset size phys)) := by
  rcases hs.holds with ⟨i, l, hold⟩
  rcases hs.heap with ⟨live, hlive⟩
  have hlen := hold.length
  have htotal : newSize s.node offset size = max s.node.size (offset + size) := by
    rw [newSize, u32_of_lt hend, max_comm, max_def_lt]
  rw [fat16VfsWrite, if_neg hoff] at h
  rcases bind_eq_some_iff.mp h with ⟨⟨v1, p⟩, htake, h⟩
  rcases takeBuffer_cases htake with ⟨h1, rfl, hk, _⟩
  by_cases hp : p = 0
  · simp only [if_pos hp, some.injEq, Prod.mk.injEq] at h
    exact absurd hcode (h.2.2 ▸ by decide)
  have hlt := takeBuffer_lt hlive htake hp
  simp only [if_neg hp] at h
  rcases bind_eq_some_iff.mp h with ⟨⟨v2, out⟩, hread, h⟩
  have hfit : ¬ newSize s.node offset size < offset + size := by omega
  rw [if_neg hfit] at h
  rcases bind_eq_some_iff.mp h with ⟨⟨w, n⟩, hw, h⟩
  rcases map_eq_some_iff.mp h with ⟨h3, hfree, h⟩
  -- Whether the old contents can be read is settled by the first two answers.
  have hcan : CanRead s offset size phys ↔
      ∀ g, Heap.kmalloc (phys 1) s.fat.bpb.clusterSize h1 ≠ some (g, 0) := by
    refine ⟨fun hc => hc h1 p hk, fun hc h' p' hk' => ?_⟩
    rw [hk, some.injEq, Prod.mk.injEq] at hk'
    exact hk'.1 ▸ hc
  have hheld := Heap.reachable_kmalloc hlive hk
  rw [if_neg hp] at hheld
  have hheap2 : Heap.sessions.Reachable { heap := v2.heap, live := p :: live } := by
    rcases readExisting_eq hread with ⟨_, rfl, _⟩ | ⟨n', hr⟩
    · exact hheld
    · exact readFile_heap hheld hr
  rcases readExisting_cases (hold.withHeap h1) (by omega) hread with ⟨⟨g, rfl⟩, hzero, hcases⟩
  rcases writeFile_code hw with rfl | rfl
  swap
  · simp only [show (-1 : Int) < 0 by decide, if_true, Prod.mk.injEq] at h
    exact absurd hcode (h.2.2 ▸ by decide)
  rcases h with ⟨rfl, rfl, rfl⟩
  rcases writeFile_holds ((hold.withHeap h1).withHeap g) hlt hw with ⟨j, l', hnew⟩
  have hbytes : bytes (copy out offset data size) 0 (newSize s.node offset size) =
      writeAt (bytes out 0 s.node.size) offset (bytes data 0 size) := by
    rw [writeAt_bytes (fun b hlo hb => hzero b hlo (by omega)), htotal]
  rw [hbytes] at hnew
  have hback := Heap.reachable_kfree (writeFile_heap hheap2 hw) hfree
  refine ⟨_, ⟨⟨j, l', hnew.withHeap h3⟩, live, hback⟩, i32_of_lt (by omega), ?_⟩
  rcases hcases with ⟨hold', hbuf⟩ | ⟨hzeros, hnone⟩
  · refine Or.inl ⟨hold', hbuf.imp (fun hz => ?_) hcan.mpr⟩
    exact eq_nil_of_length_eq_zero (hlen.trans hz)
  · refine Or.inr ⟨hlen.symm ▸ hzeros, fun hc => ?_⟩
    rcases hnone with ⟨g', hg'⟩
    exact hcan.mp hc g' hg'

end Step

/-! ### All traces -/

/-- Writing over zeros is writing over the file if what is kept of it is
    zero. -/
theorem writeAt_zeros_iff (file : List UInt8) (off : Nat) (new : List UInt8) :
    writeAt (List.replicate file.length 0) off new = writeAt file off new ↔
      ∀ x ∈ file.take off ++ file.drop (off + new.length), x = 0 := by
  simp only [writeAt, length_replicate, take_append, take_replicate,
    drop_replicate, append_assoc, mem_append]
  constructor
  · intro h x hx
    rcases append_inj h (by simp only [length_replicate, length_take]) with
      ⟨hleft, hright⟩
    rcases append_inj hright rfl with ⟨_, hright⟩
    rcases append_inj hright rfl with ⟨_, hright⟩
    rcases hx with hx | hx
    · exact eq_of_mem_replicate (hleft ▸ hx)
    · exact eq_of_mem_replicate (hright ▸ hx)
  · intro h
    have hleft : file.take off = List.replicate (min off file.length) 0 :=
      eq_replicate_iff.mpr ⟨length_take, fun x hx => h x (Or.inl hx)⟩
    have hright : file.drop (off + new.length) =
        List.replicate (file.length - (off + new.length)) 0 :=
      eq_replicate_iff.mpr ⟨length_drop, fun x hx => h x (Or.inr hx)⟩
    rw [hleft, hright]

/-- A write at offset zero is not shorter than the file. For another offset
    the old contents can be read, or what is kept of them is zero anyway. -/
def Keeps (s : DiskFile) : Call → Prop
  | .read _ _ _ => True
  | .write offset size _ phys _ =>
    (offset = 0 → s.node.size ≤ size) ∧
      (offset ≠ 0 → CanRead s offset size phys ∨
        ∀ file, OnDisk s file → ∀ x ∈ file.take offset ++ file.drop (offset + size), x = 0)

variable {file : List UInt8} {s : DiskFile}

theorem OnDisk.unique {file' : List UInt8} (h : OnDisk s file) (h' : OnDisk s file') :
    file = file' := by
  rcases h.holds with ⟨_, _, hold⟩
  rcases h'.holds with ⟨_, _, hold'⟩
  exact hold.unique hold'

theorem OnDisk.length (h : OnDisk s file) : file.length = s.node.size := by
  rcases h.holds with ⟨_, _, hold⟩
  exact hold.length

/-- The calls that keep the old contents are the ones that the byte string
    can follow. -/
theorem step_iff {t : DiskFile} {o : Call} {r : Answer} (hs : OnDisk s file)
    (h : calls.step s o r t) :
    (∃ file', byteFile.step file o r file' ∧ OnDisk t file') ↔ Keeps s o := by
  rcases h with ⟨hrange, hserve, hcode⟩
  have hlen := hs.length
  cases o with
  | read offset size phys =>
    rcases map_eq_some_iff.mp hserve with ⟨⟨v', code, new⟩, hread, heq⟩
    rcases heq with ⟨rfl, rfl⟩
    rcases read_step hs hread hcode with ⟨hold, hc, hn⟩
    exact ⟨fun _ => trivial, fun _ => ⟨file, ⟨rfl, Prod.ext hc hn⟩, hold⟩⟩
  | write offset size data phys ata =>
    rcases map_eq_some_iff.mp hserve with ⟨⟨v', node', code⟩, hwrite, heq⟩
    rcases heq with ⟨rfl, rfl⟩
    -- In each case the new contents are known, and there is only one file.
    have hiff : ∀ result : List UInt8, OnDisk { fat := v', node := node' } result → code = size →
        ((∃ file', byteFile.step file (.write offset size data phys ata) (code, []) file' ∧
          OnDisk { fat := v', node := node' } file') ↔
            result = writeAt file offset (bytes data 0 size)) := by
      intro result hres hc
      constructor
      · rintro ⟨file', ⟨rfl, _⟩, hold⟩
        exact hres.unique hold
      · rintro rfl
        exact ⟨_, ⟨rfl, by rw [hc]⟩, hres⟩
    by_cases hoff : offset = 0
    · subst hoff
      rcases write_start hs (by simpa only [InRange, Nat.zero_add] using hrange) hwrite hcode with
        ⟨hold, hc⟩
      rw [hiff _ hold hc]
      constructor
      · intro heq
        have hl := congrArg List.length heq
        rw [length_bytes, length_writeAt, length_bytes] at hl
        exact ⟨fun _ => by omega, fun hne => absurd rfl hne⟩
      · intro hkeep
        have hle := hkeep.1 rfl
        have hdrop : file.drop (0 + (bytes data 0 size).length) = [] :=
          drop_eq_nil_of_le (by rw [length_bytes]; omega)
        rw [writeAt, hdrop, take_zero, nil_append, append_nil]
    · rcases write_inside hs hoff hrange hwrite hcode with ⟨old, hold, hc, hcases⟩
      rw [hiff _ hold hc]
      rcases hcases with ⟨rfl, hcan⟩ | ⟨rfl, hcan⟩
      · refine ⟨fun _ => ⟨fun h0 => absurd h0 hoff, fun _ => ?_⟩, fun _ => rfl⟩
        rcases hcan with rfl | hcan
        · refine Or.inr (fun file' hfile' x hx => ?_)
          rw [← hs.unique hfile', take_nil, drop_nil] at hx
          exact absurd hx not_mem_nil
        · exact Or.inl hcan
      · rw [writeAt_zeros_iff, length_bytes]
        constructor
        · intro hz
          exact ⟨fun h0 => absurd h0 hoff, fun _ => Or.inr (fun file' hfile' =>
            hs.unique hfile' ▸ hz)⟩
        · intro hkeep
          rcases hkeep.2 hoff with hyes | hz
          · exact absurd hyes hcan
          · exact hz file hs

/-- The calls on a file of the volume are the calls on its byte string, as
    long as each keeps the old contents; and a call that does not leaves
    another file than the byte string. -/
theorem calls_refine {s : DiskFile} {file : List UInt8} (hs : OnDisk s file) :
    (∀ log t, (calls.restrict Keeps).Trace s log t →
      ∃ file', byteFile.Trace file log file' ∧ OnDisk t file') ∧
    ∀ o r t, calls.step s o r t →
      ((∃ file', byteFile.step file o r file' ∧ OnDisk t file') ↔ Keeps s o) := by
  refine ⟨fun log t h => ?_, fun o r t h => step_iff hs h⟩
  have hstep : ∀ s file o r t, OnDisk s file → (calls.restrict Keeps).step s o r t →
      ∃ file', byteFile.step file o r file' ∧ OnDisk t file' := by
    rintro s file o r t hrep ⟨hkeep, hcall⟩
    exact (step_iff hrep hcall).mpr hkeep
  exact Service.Trace.simulate hstep h hs

/-! ### A file of three bytes -/

/-- The node of the file on the small volume. -/
def sampleNode : FileNode where
  name := [0x42]
  size := 3

theorem onDisk_sample {h : Heap} (hi : Heap.init samplePhys (fun _ => 0) = some h) :
    OnDisk { fat := sample h, node := sampleNode } [0, 0, 0] := by
  have hentry : fileSizeOf (readRootEntry (Bpb.parse sampleBoot) sampleDisk 0) = 3 := by
    decide
  have hbytes : [0, 0, 0] = bytes (fileMem (Bpb.parse sampleBoot) sampleDisk [3]) 0 3 := by
    decide
  have hfits : 3 ≤ (Bpb.parse sampleBoot).clusterSize * [3].length := by
    decide
  exact ⟨⟨0, [3], rfl, (mounted_sample h).entries_mod, (mounted_sample h).clusterSize_lt,
    find_sample.1, chain_sample h, hentry, hfits, hbytes⟩, [], Heap.reachable_init hi⟩

theorem calls_refine_sample :
    ∃ s, OnDisk s [0, 0, 0] ∧
      (∀ log t, (calls.restrict Keeps).Trace s log t →
        ∃ file', byteFile.Trace [0, 0, 0] log file' ∧ OnDisk t file') ∧
      ∀ o r t, calls.step s o r t →
        ((∃ file', byteFile.step [0, 0, 0] o r file' ∧ OnDisk t file') ↔ Keeps s o) := by
  have hi : (Heap.init samplePhys (fun _ => 0)).isSome = true := by decide
  rcases isSome_iff_exists.mp hi with ⟨h, hi⟩
  exact ⟨_, onDisk_sample hi, calls_refine (onDisk_sample hi)⟩

/-- One byte is written to the start of the file of three, and one byte is
    all that can be read afterwards. -/
theorem short_write :
    ∃ s log t, OnDisk s [0, 0, 0] ∧ calls.Trace s log t ∧
      ¬ ∃ file', byteFile.Trace [0, 0, 0] log file' := by
  let write : Call := .write 0 1 (fun _ => 7) (fun _ => samplePhys) (fun _ _ => .ok)
  let read : Call := .read 0 3 (fun _ => samplePhys)
  have hrun : ((Heap.init samplePhys (fun _ => 0)).bind (fun h =>
      (serveCall { fat := sample h, node := sampleNode } write).bind (fun r =>
        (serveCall r.1 read).map (fun q => (r.2, q.2))))) = some ((1, []), (1, [7])) := by
    decide
  rcases bind_eq_some_iff.mp hrun with ⟨h, hi, hrun⟩
  rcases bind_eq_some_iff.mp hrun with ⟨⟨s1, r1⟩, hwrite, hrun⟩
  rcases map_eq_some_iff.mp hrun with ⟨⟨s2, r2⟩, hread, hreplies⟩
  rcases hreplies with ⟨rfl, rfl⟩
  have hfirst : calls.step { fat := sample h, node := sampleNode } write (1, []) s1 :=
    ⟨(by decide : 0 + 1 < 2 ^ 32), hwrite, by decide⟩
  have hsecond : calls.step s1 read (1, [7]) s2 :=
    ⟨(by decide : 0 < 2 ^ 32 ∧ 3 < 2 ^ 32), hread, by decide⟩
  refine ⟨_, [(write, (1, [])), (read, (1, [7]))], s2, onDisk_sample hi,
    .cons _ _ _ _ _ _ hfirst (.cons _ _ _ _ _ _ hsecond (.nil _)), ?_⟩
  rintro ⟨file', htrace⟩
  cases htrace with
  | cons _ f1 _ _ _ _ hw hrest =>
    rcases hw with ⟨rfl, _⟩
    cases hrest with
    | cons _ f2 _ _ _ _ hr _ =>
      have hreply : ((1 : Int), [(7 : UInt8)]) = (3, [7, 0, 0]) := hr.2
      exact absurd hreply (by decide)

end SysRust.Fat16Vfs
