import SysRust.Theory.Fat16.Write
import SysRust.Theory.Heap.Reuse
import SysRust.Theory.Heap.Runs

/-!
# Writing and Reading Back

What `read_file` returns, and that it returns what `write_file` wrote: at
once, and after the volume has been mounted again from its sectors. The
other files of the directory read as before.

`readFile_spec` describes `read_file` on a file with a sound chain. With it,
each of the three results is a matter of finding the entry, its chain and
the bytes of its clusters in the new state. `Target` says which entry
`write_file` has chosen and what the table looked like when it started to
allocate.

## Main definitions

* `Mounted`: The state behind a successful `init`.
* `FilesSound`: The listed files have chains in use, and share no cluster.
* `Buffer`: The heap can hand out a cluster buffer and take it back.
* `Target`: The entry that `write_file` writes.

## Theorems

* `readLoop_spec`, `readFile_spec`: Reading a file.
* `readFile_buffer`: What it does to the heap.
* `writeFile_cases`: The ways into the body of `write_file`.
* `writeFile_returns`: It always comes back.
* `target_find`, `target_find_other`: Lookups after the entry was written.
* `init_cases`: A successful mount.
* `write_read_remount`: What was written is read back, also after mounting
  again, and the other files are as they were.
* `remount_takes_buffer`: Mounting again can leave no buffer to read with.
-/

namespace SysRust.Fat16

open Option

/-! ### Reading -/

theorem window_fileMem (b : Bpb) (d : Disk) (c : Nat) (l : List Nat) (hpos : 0 < b.clusterSize) :
    window (fileMem b d (c :: l)) b.clusterSize = fileMem b d l := by
  funext k
  simp only [window, fileMem]
  rw [Nat.add_comm, Nat.add_div_right _ hpos, Nat.add_mod_right,
    List.getD_cons_succ]

/-- One cluster read into the buffer is the first part of the file. -/
theorem readSectors_fileMem (b : Bpb) (d : Disk) (c : Nat) (l : List Nat) (buf : Mem) :
    AgreeOn (readSectors d (b.clusterLba c) b.sectorsPerCluster 0 buf) (fileMem b d (c :: l))
      0 b.clusterSize := by
  intro k _ hk
  have hk' : k < 512 * (0 + b.sectorsPerCluster) := by
    simp only [Bpb.clusterSize] at hk
    omega
  rw [readSectors_at _ _ _ _ _ (by omega) hk', fileMem, Nat.div_eq_of_lt hk, Nat.mod_eq_of_lt hk]
  rfl

variable {c i size k : Nat} {l : List Nat} {phys : Nat → Nat} {v v' u : Fat16} {buf entry t : Mem}
  {fatName other : List UInt8} {ch : Nat → List Nat}

/-- The read loop copies the clusters of the chain until nothing remains. -/
theorem readLoop_spec (v : Fat16) {remaining fuel : Nat}
    (hl : FileChain v.fatTable v.fatEntries c l) (hpos : 0 < v.bpb.clusterSize)
    (hf : remaining ≤ fuel) (offset : Nat) (cbuf buf : Mem) :
    v.readLoop fuel remaining c offset cbuf buf =
      some (offset + min remaining (v.bpb.clusterSize * l.length),
        copy buf offset (fileMem v.bpb v.disk l)
          (min remaining (v.bpb.clusterSize * l.length))) := by
  induction l generalizing c remaining fuel offset cbuf buf with
  | nil =>
    have hend : ¬ IsCluster c := hl.chain
    rw [List.length_nil, Nat.mul_zero, Nat.min_zero, copy_zero, Nat.add_zero]
    cases fuel with
    | zero => rfl
    | succ fuel => rw [readLoop, if_neg (fun h => hend h.2)]
  | cons x l ih =>
    rcases hl.chain with ⟨hlink, rfl, _⟩
    by_cases hrem : remaining = 0
    · rw [hrem, Nat.zero_min, copy_zero, Nat.add_zero]
      cases fuel with
      | zero => rfl
      | succ fuel => rw [readLoop, if_neg (fun h => absurd h.1 (Nat.lt_irrefl 0))]
    · obtain ⟨fuel, rfl⟩ : ∃ k, fuel = k + 1 := ⟨fuel - 1, by omega⟩
      have hnext := fatNext_inside (t := v.fatTable) (hl.inRange x List.mem_cons_self)
      have hcopy : copy buf offset
          (readSectors v.disk (v.bpb.clusterLba x) v.bpb.sectorsPerCluster 0 cbuf)
          (min v.bpb.clusterSize remaining) =
          copy buf offset (fileMem v.bpb v.disk (x :: l)) (min v.bpb.clusterSize remaining) :=
        copy_congr (agreeOn_mono (readSectors_fileMem v.bpb v.disk x l cbuf) (Nat.le_refl _)
          (Nat.min_le_left _ _))
      have hmul : v.bpb.clusterSize * (l.length + 1) =
          v.bpb.clusterSize * l.length + v.bpb.clusterSize := Nat.mul_succ _ _
      rw [readLoop, if_pos ⟨Nat.pos_of_ne_zero hrem, hlink⟩, readCluster,
        if_neg (Nat.not_lt.mpr hlink.1), bind_some, hnext, hcopy,
        ih hl.tail (by omega) _ _ _, List.length_cons, hmul]
      by_cases hlast : remaining ≤ v.bpb.clusterSize
      · -- The last cluster that is read.
        rw [Nat.min_eq_right hlast, Nat.sub_self, Nat.zero_min, copy_zero, Nat.add_zero,
          Nat.min_eq_left (by omega)]
      · rw [Nat.min_eq_left (by omega : v.bpb.clusterSize ≤ remaining),
          ← window_fileMem v.bpb v.disk x l hpos, copy_copy, Nat.add_assoc,
          show v.bpb.clusterSize + min (remaining - v.bpb.clusterSize)
            (v.bpb.clusterSize * l.length) =
            min remaining (v.bpb.clusterSize * l.length + v.bpb.clusterSize) by omega]

/-- The heap hands out a cluster buffer and takes it back. -/
def Buffer (phys : Nat → Nat) (v : Fat16) : Prop :=
  ∃ h1 p h2, Heap.kmalloc phys v.bpb.clusterSize v.heap = some (h1, p) ∧ p ≠ 0 ∧
    Heap.kfree p h1 = some h2

theorem Buffer.pos (h : Buffer phys v) : 0 < v.bpb.clusterSize := by
  rcases h with ⟨h1, p, h2, hk, hp, _⟩
  exact kmalloc_pos hk hp

/-- Reading a file with a sound chain: as many bytes as the file has, the
    caller wants and the chain holds. -/
theorem readFile_spec {name : List UInt8} (hr : v.ready = true)
    (hi : findRootEntry v.bpb v.disk (nameTo83 name) = some i)
    (hl : FileChain v.fatTable v.fatEntries (firstClusterOf (readRootEntry v.bpb v.disk i)) l)
    (hb : Buffer phys v) (buf : Mem) (m : Nat) :
    (v.readFile phys name buf m).map Prod.snd =
      some (copy buf 0 (fileMem v.bpb v.disk l)
          (min (min (fileSizeOf (readRootEntry v.bpb v.disk i)) m) (v.bpb.clusterSize * l.length)),
        i32 (min (min (fileSizeOf (readRootEntry v.bpb v.disk i)) m)
          (v.bpb.clusterSize * l.length))) := by
  have hpos := hb.pos
  rcases hb with ⟨h1, p, h2, hk, hp, hfree⟩
  simp only [readFile, hr, hi, Bool.true_eq_false, if_false]
  by_cases hz : fileSizeOf (readRootEntry v.bpb v.disk i) = 0
  · rw [if_pos hz, hz, Nat.zero_min, Nat.zero_min, copy_zero]
    rfl
  · rw [if_neg hz, hk, bind_some]
    simp only [if_neg hp, readLoop_spec v hl hpos (Nat.le_refl _), Nat.zero_add, hfree,
      map_some]

/-- What reading does to the state: if it comes to that, the cluster buffer is
    allocated and, unless there is none, given back. -/
theorem readFile_buffer {name : List UInt8} {out : Mem} {n : Int}
    (h : v.readFile phys name buf size = some (v', out, n)) :
    v' = v ∨ ∃ h1 p, Heap.kmalloc phys v.bpb.clusterSize v.heap = some (h1, p) ∧
      ((p = 0 ∧ v' = { v with heap := h1 }) ∨
        (p ≠ 0 ∧ ∃ h2, Heap.kfree p h1 = some h2 ∧ v' = { v with heap := h2 })) := by
  simp only [readFile] at h
  by_cases hready : v.ready = false
  · rw [if_pos hready, some.injEq, Prod.mk.injEq] at h
    exact Or.inl h.1.symm
  rw [if_neg hready] at h
  cases hfind : findRootEntry v.bpb v.disk (nameTo83 name) with
  | none =>
    simp only [hfind, some.injEq, Prod.mk.injEq] at h
    exact Or.inl h.1.symm
  | some i =>
    simp only [hfind] at h
    by_cases hz : fileSizeOf (readRootEntry v.bpb v.disk i) = 0
    · rw [if_pos hz, some.injEq, Prod.mk.injEq] at h
      exact Or.inl h.1.symm
    rw [if_neg hz] at h
    rcases bind_eq_some_iff.mp h with ⟨⟨h1, p⟩, hk, h⟩
    refine Or.inr ⟨h1, p, hk, ?_⟩
    by_cases hp : p = 0
    · simp only [if_pos hp, some.injEq, Prod.mk.injEq] at h
      exact Or.inl ⟨hp, h.1.symm⟩
    · simp only [if_neg hp] at h
      refine Or.inr ⟨hp, ?_⟩
      -- Whether or not a cluster could be read, the buffer is given back.
      split at h
      all_goals
        rcases map_eq_some_iff.mp h with ⟨h2, hf, h⟩
        rw [Prod.mk.injEq] at h
        exact ⟨h2, hf, h.1.symm⟩

/-! ### The chosen entry -/

/-- The state behind a successful `init`. -/
structure Mounted (v : Fat16) : Prop where
  ready : v.ready = true
  boot : v.bpb = Bpb.parse (v.disk.sector 0)
  sectorSize : v.bpb.bytesPerSector = 512
  fatSize : v.bpb.fatSize16 ≠ 0
  numFats : v.bpb.numFats ≠ 0
  entries : v.fatEntries = v.bpb.fatSize16 * 512 / 2

theorem Mounted.entries_mod (h : Mounted v) : v.fatEntries % 256 = 0 := by
  rw [h.entries]
  omega

/-- A cluster has fewer than `2 ^ 17` bytes. -/
theorem Mounted.clusterSize_lt (h : Mounted v) : v.bpb.clusterSize < 2 ^ 17 := by
  have hlt := load_lt (v.disk.sector 0) 13 1
  have heq : v.bpb.sectorsPerCluster = load (v.disk.sector 0) 13 1 := by rw [h.boot]; rfl
  rw [Bpb.clusterSize, heq]
  omega

/-- The entries that lookups consider. -/
abbrev Lists (v : Fat16) (i : Nat) : Prop :=
  Listed v.bpb.rootEntryCount (readRootEntry v.bpb v.disk) i

/-- The chain `ch i` of every listed file `i` is in use and inside of the
    table, and no two files share a cluster. -/
structure Chains (v : Fat16) (ch : Nat → List Nat) : Prop where
  chain : ∀ i, v.Lists i →
    FileChain v.fatTable v.fatEntries (firstClusterOf (readRootEntry v.bpb v.disk i)) (ch i)
  disjoint : ∀ i j, v.Lists i → v.Lists j → i ≠ j → List.Disjoint (ch i) (ch j)

/-- The files of the volume have sound chains. -/
def FilesSound (v : Fat16) : Prop := ∃ ch, Chains v ch

/-- The entry `i` that `write_file` writes, with what it puts there and the
    table `t` it allocates from: an existing file whose chain has been freed,
    or a free slot. -/
inductive Target (v : Fat16) (fatName : List UInt8) (i : Nat) (entry t : Mem) : Prop
  | rewrite : findRootEntry v.bpb v.disk fatName = some i →
      entry = readRootEntry v.bpb v.disk i →
      freeChain v.fatEntries chainBound v.fatTable (firstClusterOf entry) = some t →
      Target v fatName i entry t
  | create : findRootEntry v.bpb v.disk fatName = none →
      findFreeRootEntry v.bpb v.disk = some i → entry = newEntry fatName → t = v.fatTable →
      Target v fatName i entry t

/-- The ways into the body of `write_file`. -/
theorem writeFile_cases {ata : Nat → Nat → WriteOutcome} {name : List UInt8} {r : Int}
    (h : v.writeFile phys ata name buf size = some (v', r)) :
    (v' = v ∧ r = -1) ∨ ∃ i entry t, Target v (nameTo83 name) i entry t ∧
      writeData phys ata buf size i entry { v with fatTable := t } = some (v', r) := by
  rw [writeFile] at h
  by_cases hr : v.ready = false
  · rw [if_pos hr, some.injEq, Prod.mk.injEq] at h
    exact Or.inl ⟨h.1.symm, h.2.symm⟩
  · rw [if_neg hr] at h
    cases hfind : findRootEntry v.bpb v.disk (nameTo83 name) with
    | some i =>
      simp only [hfind] at h
      rcases bind_eq_some_iff.mp h with ⟨t, ht, hw⟩
      exact Or.inr ⟨i, _, t, Target.rewrite hfind rfl ht, hw⟩
    | none =>
      simp only [hfind] at h
      cases hfree : findFreeRootEntry v.bpb v.disk with
      | none =>
        simp only [hfree, some.injEq, Prod.mk.injEq] at h
        exact Or.inl ⟨h.1.symm, h.2.symm⟩
      | some i =>
        simp only [hfree] at h
        exact Or.inr ⟨i, _, _, Target.create hfind hfree rfl rfl, h⟩

theorem Target.lt (h : Target v fatName i entry t) : i < v.bpb.rootEntryCount := by
  cases h with
  | rewrite hf _ _ => exact (findRootEntry_some.mp hf).1.1
  | create _ hf _ _ => exact (findFreeRootEntry_some hf).1

theorem Target.name (h : Target v fatName i entry t) (hlen : fatName.length = 11) :
    nameOf entry = fatName := by
  cases h with
  | rewrite hf he _ => rw [he]; exact (findRootEntry_some.mp hf).2.1
  | create _ _ he _ => rw [he]; exact nameOf_newEntry hlen

/-- Freeing the old chain leaves the chains of the other files alone. -/
theorem Target.keeps (h : Target v fatName i entry t) (hc : Chains v ch) {j : Nat} (hj : v.Lists j)
    (hji : j ≠ i) :
    FileChain t v.fatEntries (firstClusterOf (readRootEntry v.bpb v.disk j)) (ch j) := by
  cases h with
  | rewrite hf he hfree =>
    have hi := (findRootEntry_some.mp hf).1
    have hchain := hc.chain i hi
    rcases freeChain_spec hchain hchain.length_lt with ⟨t', ht', _, hother⟩
    rw [he, ht', some.injEq] at hfree
    subst hfree
    exact (hc.chain j hj).congr (fun x hx => hother x (fun hxi =>
      hc.disjoint j i hj hi hji hx hxi))
  | create _ _ _ ht => rw [ht]; exact hc.chain j hj

/-- `write_file` comes back on every volume, whatever the table holds and the
    disk and the page allocator do. -/
theorem writeFile_returns {a : Blocks} (hrep : HeapRep v.heap a) (phys : Nat → Nat)
    (ata : Nat → Nat → WriteOutcome) (name : List UInt8) (buf : Mem) (size : Nat) :
    ∃ r, v.writeFile phys ata name buf size = some r := by
  have hdata : ∀ (u : Fat16) (i : Nat) (e : Mem), u.heap = v.heap →
      ∃ r, writeData phys ata buf size i e u = some r := by
    intro u i e hu
    rw [writeData, hu]
    rcases Heap.kmalloc_refines hrep phys u.bpb.clusterSize with ⟨h1, hk, _⟩
    rw [hk, bind_some]
    by_cases hp : (a.alloc phys u.bpb.clusterSize).2 = 0
    · simp only [if_pos hp]
      exact ⟨_, rfl⟩
    · rcases Heap.kmalloc_kfree hrep hp with ⟨g1, g2, hk', hfree, _⟩
      rw [hk, some.injEq, Prod.mk.injEq] at hk'
      rw [← hk'.1] at hfree
      rcases writeLoop_returns ata u.bpb buf size (2 ^ 16)
        (grown_start u.fatTable u.fatEntries u.disk) (Nat.le_add_right _ _) with ⟨w, hw⟩
      simp only [if_neg hp, hw, bind_some, hfree, map_some]
      exact ⟨_, rfl⟩
  rw [writeFile]
  by_cases hr : v.ready = false
  · rw [if_pos hr]
    exact ⟨_, rfl⟩
  · rw [if_neg hr]
    cases hfind : findRootEntry v.bpb v.disk (nameTo83 name) with
    | some i =>
      rcases freeChain_returns v.fatEntries chainBound v.fatTable
        (firstClusterOf (readRootEntry v.bpb v.disk i)) List.nodup_nil
        (List.forall_mem_nil _) (by decide) with ⟨t, ht⟩
      simp only [ht, bind_some]
      exact hdata _ _ _ rfl
    | none =>
      cases findFreeRootEntry v.bpb v.disk with
      | none => exact ⟨_, rfl⟩
      | some i => exact hdata _ _ _ rfl

/-! ### Lookups after the entry was written -/

/-- The entry of a new file starts with its name. -/
theorem filled_first (hlen : fatName.length = 11) (c size : Nat) :
    fatName.head? = some (filled (newEntry fatName) c size 0) := by
  rw [filled_header _ c size 0 (by omega) (by omega)]
  exact nameOf_head (nameOf_newEntry hlen)

/-- The written entry keeps the header that was chosen for it. -/
theorem dirUpdate_header {count : Nat} {dir dir' : Nat → Mem}
    (hu : DirUpdate count dir dir' i (filled entry c size)) : AgreeOn (dir' i) entry 0 26 :=
  fun x h1 h2 => (hu.1 x h1 (by omega)).trans (filled_header entry c size x h1 h2)

theorem dirUpdate_name {count : Nat} {dir dir' : Nat → Mem}
    (hu : DirUpdate count dir dir' i (filled entry c size)) : nameOf (dir' i) = nameOf entry :=
  nameOf_congr (agreeOn_mono (dirUpdate_header hu) (Nat.le_refl _) (by omega))

theorem dirUpdate_cluster {count : Nat} {dir dir' : Nat → Mem}
    (hu : DirUpdate count dir dir' i (filled entry c size)) (hc : c < 2 ^ 16) :
    firstClusterOf (dir' i) = c := by
  rw [← firstClusterOf_filled entry size hc]
  exact load_congr (agreeOn_mono hu.1 (by omega) (by omega))

theorem dirUpdate_size {count : Nat} {dir dir' : Nat → Mem}
    (hu : DirUpdate count dir dir' i (filled entry c size)) (hsize : size < 2 ^ 32) :
    fileSizeOf (dir' i) = size := by
  rw [← fileSizeOf_filled entry c hsize]
  exact load_congr (agreeOn_mono hu.1 (by omega) (by omega))

section Lookup

variable {d' : Disk}

/-- The file is found where it was written. -/
theorem target_find (h : Target v fatName i entry t) (hlen : fatName.length = 11)
    (hend : ∀ x, fatName.head? = some x → x ≠ 0x00)
    (hdel : ∀ x, fatName.head? = some x → x ≠ 0xE5)
    (hu : DirUpdate v.bpb.rootEntryCount (readRootEntry v.bpb v.disk) (readRootEntry v.bpb d') i
      (filled entry c size)) : findRootEntry v.bpb d' fatName = some i := by
  have hname := (dirUpdate_name hu).trans (h.name hlen)
  refine findRootEntry_some.mpr ?_
  cases h with
  | rewrite hf he _ =>
    rcases findRootEntry_some.mp hf with ⟨hl, _, hfirst⟩
    have hsame := listed_rewrite hu
      (by rw [he]; exact filled_header _ c size)
    refine ⟨(hsame.1 i).mpr hl, hname, fun j hj hlj => ?_⟩
    rw [hsame.2 j hlj.1]
    exact hfirst j hj ((hsame.1 j).mp hlj)
  | create hf hfree he _ =>
    rcases findFreeRootEntry_some hfree with ⟨hlt, _, hpre⟩
    have hfst := filled_first hlen c size
    have hattr : filled entry c size 11 = 0x20 := by
      rw [filled_header entry c size 11 (by omega) (by omega), he]
      exact attrOf_newEntry fatName
    rw [← he] at hfst
    refine ⟨listed_created hu hlt hpre (hend _ hfst) (hdel _ hfst) hattr, hname,
      fun j hj hlj => ?_⟩
    -- The entries in front of the slot are the old ones.
    have hold : Listed v.bpb.rootEntryCount (readRootEntry v.bpb v.disk) j :=
      listed_congr (fun k hk hkj => (hu.2 k hk (by omega) 0 (by omega) (by omega)).symm)
        (fun hk => (hu.2 j hk (by omega) 11 (by omega) (by omega)).symm) hlj
    have hsame : nameOf (readRootEntry v.bpb d' j) = nameOf (readRootEntry v.bpb v.disk j) :=
      nameOf_congr (agreeOn_mono (hu.2 j hlj.1 (by omega)) (Nat.le_refl _) (by omega))
    rw [hsame]
    exact findRootEntry_none hf j hold

/-- A file with another name is found where it was, under an entry that was
    not touched. -/
theorem target_find_other (h : Target v fatName i entry t) (hlen : fatName.length = 11)
    (hend : ∀ x, fatName.head? = some x → x ≠ 0x00)
    (hu : DirUpdate v.bpb.rootEntryCount (readRootEntry v.bpb v.disk) (readRootEntry v.bpb d') i
      (filled entry c size)) (hne : other ≠ fatName)
    (hk : findRootEntry v.bpb v.disk other = some k) :
    k ≠ i ∧ findRootEntry v.bpb d' other = some k := by
  rcases findRootEntry_some.mp hk with ⟨hl, hname, hfirst⟩
  have hnamei := (dirUpdate_name hu).trans (h.name hlen)
  have hsame : ∀ j, j < v.bpb.rootEntryCount → j ≠ i →
      nameOf (readRootEntry v.bpb d' j) = nameOf (readRootEntry v.bpb v.disk j) := fun j hj hji =>
    nameOf_congr (agreeOn_mono (hu.2 j hj hji) (Nat.le_refl _) (by omega))
  cases h with
  | rewrite hf he _ =>
    have hkeep := listed_rewrite hu
      (by rw [he]; exact filled_header _ c size)
    have hki : k ≠ i := by
      rintro rfl
      exact hne (hname.symm.trans (findRootEntry_some.mp hf).2.1)
    refine ⟨hki, findRootEntry_some.mpr ⟨(hkeep.1 k).mpr hl, ?_, fun j hj hlj => ?_⟩⟩
    · rw [hkeep.2 k hl.1]; exact hname
    · rw [hkeep.2 j hlj.1]; exact hfirst j hj ((hkeep.1 j).mp hlj)
  | create hf hfree he _ =>
    rcases findFreeRootEntry_some hfree with ⟨_, hslot, _⟩
    have hfst := filled_first hlen c size
    rw [← he] at hfst
    rcases listed_create hu hslot (hend _ hfst) hl with ⟨hki, hlk⟩
    refine ⟨hki, findRootEntry_some.mpr ⟨hlk, ?_, fun j hj hlj => ?_⟩⟩
    · rw [hsame k hl.1 hki]; exact hname
    · by_cases hji : j = i
      · rw [hji, hnamei]; exact fun he => hne he.symm
      · -- Up to `k` the old directory has no end mark.
        have hagree := hu.2 j hlj.1 hji
        have hold : Listed v.bpb.rootEntryCount (readRootEntry v.bpb v.disk) j := by
          refine ⟨hlj.1, fun x hx => hl.2.1 x (by omega), ?_, ?_⟩
          · rw [← hagree 0 (by omega) (by omega)]; exact hlj.2.2.1
          · rw [← IsSkipped.congr (hagree 11 (by omega) (by omega))]; exact hlj.2.2.2
        rw [hsame j hlj.1 hji]
        exact hfirst j hj hold

end Lookup

/-! ### Reading the volume that was written -/

section ReadBack

variable {name : List UInt8} {data : Mem} {p : Cursor}

/-- The written file reads as the data, from any state with the layout, the
    disk and the chains of the one behind the write. -/
theorem read_written (hm : Mounted v) (hname : ∀ c ∈ name, c ≠ 0 ∧ c < 128) (hsize : size < 2 ^ 31)
    (ht : Target v (nameTo83 name) i entry t)
    (hw : Wrote data size i entry { v with fatTable := t } v' p l)
    (hub : u.bpb = v.bpb) (hud : u.disk = v'.disk) (hur : u.ready = true)
    (hue : u.fatEntries = v.fatEntries)
    (hut : ∀ x, x < v.fatEntries → fatAt u.fatTable x = fatAt p.table x) (hbuf : Buffer phys u)
    (buf : Mem) (m : Nat) :
    (u.readFile phys name buf m).map Prod.snd =
      some (copy buf 0 data (min size m), ((min size m : Nat) : Int)) := by
  have hfind : findRootEntry u.bpb u.disk (nameTo83 name) = some i := by
    rw [hub, hud]
    exact target_find ht (nameTo83_length name)
      (fun x hx => nameTo83_ne_end (fun c hc => (hname c hc).1) hx)
      (fun x hx => nameTo83_ne_deleted (fun c hc => (hname c hc).2) hx) hw.dir
  have hchain := grown_chain hw.grown hm.entries_mod
  -- The entry at `i` carries the new cluster and size.
  have hfirst : firstClusterOf (readRootEntry u.bpb u.disk i) = p.firstCluster := by
    rw [hub, hud]
    exact dirUpdate_cluster hw.dir hw.grown.first_lt
  have hsz : fileSizeOf (readRootEntry u.bpb u.disk i) = size := by
    rw [hub, hud]
    exact dirUpdate_size hw.dir (by omega)
  have hul : FileChain u.fatTable u.fatEntries
      (firstClusterOf (readRootEntry u.bpb u.disk i)) l := by
    rw [hue, hfirst]
    exact hchain.congr (fun x hx => hut x (hchain.inRange x hx))
  rw [readFile_spec hur hfind hul hbuf buf m, hsz, hub, hud]
  have hholds := hw.holds
  have hmin : min (min size m) (v.bpb.clusterSize * l.length) = min size m := by
    have hle := hholds.1
    simp only at hle
    omega
  rw [hmin, i32_of_lt (by omega)]
  exact congrArg some (Prod.ext
    (copy_congr (agreeOn_mono hholds.2 (Nat.le_refl _) (Nat.min_le_left _ _))) rfl)

/-- A file with another name reads as it did before the write. -/
theorem read_other {phys0 : Nat → Nat} (hm : Mounted v) (hname : ∀ c ∈ name, c ≠ 0)
    (hc : Chains v ch) (ht : Target v (nameTo83 name) i entry t)
    (hw : Wrote data size i entry { v with fatTable := t } v' p l)
    (hne : nameTo83 other ≠ nameTo83 name)
    (hk : findRootEntry v.bpb v.disk (nameTo83 other) = some k) (hbuf : Buffer phys0 v)
    (hbuf' : Buffer phys v') (buf : Mem) (m : Nat) :
    (v'.readFile phys other buf m).map Prod.snd = (v.readFile phys0 other buf m).map Prod.snd := by
  have hbpb : v'.bpb = v.bpb := hw.bpb
  rcases target_find_other ht (nameTo83_length name)
    (fun x hx => nameTo83_ne_end hname hx) hw.dir hne hk with ⟨hki, hfind⟩
  have hl := (findRootEntry_some.mp hk).1
  have hagree := hw.dir.2 k hl.1 hki
  have hkeep := ht.keeps hc hl hki
  -- Its entry, its chain and its clusters are the old ones.
  have hfirst : firstClusterOf (readRootEntry v'.bpb v'.disk k) =
      firstClusterOf (readRootEntry v.bpb v.disk k) := by
    rw [hbpb]
    exact load_congr (agreeOn_mono hagree (by omega) (by omega))
  have hsz : fileSizeOf (readRootEntry v'.bpb v'.disk k) =
      fileSizeOf (readRootEntry v.bpb v.disk k) := by
    rw [hbpb]
    exact load_congr (agreeOn_mono hagree (by omega) (by omega))
  have hchain : FileChain v'.fatTable v'.fatEntries
      (firstClusterOf (readRootEntry v'.bpb v'.disk k)) (ch k) := by
    rw [hw.table, hw.entries, hfirst]
    exact grown_keeps hw.grown hkeep
  have hmem : AgreeOn (fileMem v.bpb v'.disk (ch k)) (fileMem v.bpb v.disk (ch k)) 0
      (v.bpb.clusterSize * (ch k).length) := by
    refine fileMem_congr hbuf.pos (fun x hx j hj => ?_)
    exact hw.others x (grown_disjoint hw.grown hkeep hx) (chain_links hkeep.chain x hx).1 j hj
  have hready : v'.ready = true := by rw [hw.ready]; exact hm.ready
  have hfind' : findRootEntry v'.bpb v'.disk (nameTo83 other) = some k := by
    rw [hbpb]; exact hfind
  rw [readFile_spec hready hfind' hchain hbuf' buf m,
    readFile_spec hm.ready hk (hc.chain k hl) hbuf buf m, hsz, hbpb,
    copy_congr (agreeOn_mono hmem (Nat.le_refl _) (Nat.min_le_right _ _))]

end ReadBack

/-! ### Mounting again -/

/-- A mount that succeeds: one block is taken from the heap, the layout is that
    of the boot sector, and the table is the first copy of the FAT. -/
theorem init_cases (h : v.init phys = some (u, 0)) :
    (∃ size p, Heap.kmalloc phys size v.heap = some (u.heap, p)) ∧
      u.bpb = Bpb.parse (v.disk.sector 0) ∧ u.disk = v.disk ∧ u.ready = true ∧
      u.fatEntries = u.bpb.fatSize16 * 512 / 2 ∧
      ∀ b, b < 512 * u.bpb.fatSize16 →
        u.fatTable b = v.disk.sector (u.bpb.firstFatSector + b / 512) (b % 512) := by
  simp only [init] at h
  by_cases hbad : (Bpb.parse (v.disk.sector 0)).bytesPerSector ≠ 512 ∨
      (Bpb.parse (v.disk.sector 0)).fatSize16 = 0 ∨ (Bpb.parse (v.disk.sector 0)).numFats = 0
  · rw [if_pos hbad, some.injEq, Prod.mk.injEq] at h
    exact absurd h.2 (by decide)
  · rw [if_neg hbad] at h
    rcases bind_eq_some_iff.mp h with ⟨⟨h1, p⟩, hk, h⟩
    by_cases hp : p = 0
    · simp only [if_pos hp, some.injEq, Prod.mk.injEq] at h
      exact absurd h.2 (by decide)
    · simp only [if_neg hp, some.injEq, Prod.mk.injEq] at h
      rcases h with ⟨rfl, _⟩
      refine ⟨⟨_, p, hk⟩, rfl, rfl, rfl, rfl, fun b hb => ?_⟩
      exact readSectors_at _ _ _ _ _ (by omega) (by simpa only [Nat.zero_add] using hb)

/-- The table read back from the disk is the one that was flushed. -/
theorem remount_table {data : Mem} {p : Cursor} {h : Heap} (hm : Mounted v)
    (hres : 0 < v.bpb.reservedSectors)
    (hw : Wrote data size i entry { v with fatTable := t } v' p l)
    (hu : init phys { v' with heap := h } = some (u, 0)) :
    u.bpb = v.bpb ∧ u.disk = v'.disk ∧ u.ready = true ∧ u.fatEntries = v.fatEntries ∧
      ∀ x, x < v.fatEntries → fatAt u.fatTable x = fatAt p.table x := by
  rcases init_cases hu with ⟨-, hbpb, hdisk, hready, hentries, htable⟩
  have hboot : v'.disk.sector 0 = v.disk.sector 0 := hw.boot 0 hres
  have hub : u.bpb = v.bpb := by rw [hbpb, hm.boot]; exact congrArg Bpb.parse hboot
  refine ⟨hub, hdisk, hready, by rw [hentries, hub, hm.entries], fun x hx => ?_⟩
  rw [hm.entries] at hx
  rw [hub] at htable
  refine load_congr (fun b h1 h2 => ?_)
  have hb : b < 512 * v.bpb.fatSize16 := by omega
  have hs : b / 512 < v.bpb.fatSize16 := by omega
  rw [htable b hb, hw.flushed hm.numFats (b / 512) hs, window, Nat.div_add_mod]

/-- A cluster buffer that can be had after mounting can be given back. -/
theorem init_buffer {s : Heap.Session} {phys' : Nat → Nat} (hs : Heap.sessions.Reachable s)
    (hu : init phys { v with heap := s.heap } = some (u, 0))
    (hroom : ∀ h, Heap.kmalloc phys' u.bpb.clusterSize u.heap ≠ some (h, 0)) : Buffer phys' u := by
  rcases Heap.rep_reachable hs with ⟨a, hrep⟩
  rcases (init_cases hu).1 with ⟨size, p, hk⟩
  rcases Heap.kmalloc_refines hrep.heap phys size with ⟨h1, hk1, hr1⟩
  have heq : h1 = u.heap := by
    rw [hk1, some.injEq, Prod.mk.injEq] at hk
    exact hk.1
  rw [heq] at hr1
  rcases Heap.kmalloc_refines hr1 phys' u.bpb.clusterSize with ⟨h2, hk2, _⟩
  have hp : ((a.alloc phys size).1.alloc phys' u.bpb.clusterSize).2 ≠ 0 := by
    intro hz
    rw [hz] at hk2
    exact hroom h2 hk2
  rcases Heap.kmalloc_kfree hr1 hp with ⟨g1, g2, hk3, hf3, _⟩
  exact ⟨g1, _, g2, hk3, hp, hf3⟩

/-- What `write_file` wrote is what `read_file` returns, at once and after
    the volume has been mounted again, with any heap that has room for a
    cluster buffer; and every other file of the directory reads as before. -/
theorem write_read_remount {v v' : Fat16} {s : Heap.Session} {phys : Nat → Nat}
    {ata : Nat → Nat → WriteOutcome} {name : List UInt8} {data : Mem} {size : Nat}
    (hm : Mounted v) (hres : 0 < v.bpb.reservedSectors) (hf : FilesSound v)
    (hs : Heap.sessions.Reachable s) (hheap : v.heap = s.heap)
    (hname : ∀ c ∈ name, c ≠ 0 ∧ c < 128) (hsize : size < 2 ^ 31)
    (hw : v.writeFile phys ata name data size = some (v', 0)) :
    (∀ phys' buf m, (v'.readFile phys' name buf m).map Prod.snd =
        some (copy buf 0 data (min size m), ((min size m : Nat) : Int))) ∧
      (∀ s' phys₁ phys' u buf m, Heap.sessions.Reachable s' →
        init phys₁ { v' with heap := s'.heap } = some (u, 0) →
        (∀ h, Heap.kmalloc phys' u.bpb.clusterSize u.heap ≠ some (h, 0)) →
        (u.readFile phys' name buf m).map Prod.snd =
          some (copy buf 0 data (min size m), ((min size m : Nat) : Int))) ∧
      ∀ other phys' buf m, nameTo83 other ≠ nameTo83 name →
        (findRootEntry v.bpb v.disk (nameTo83 other)).isSome →
        (v'.readFile phys' other buf m).map Prod.snd =
          (v.readFile phys other buf m).map Prod.snd := by
  rcases hf with ⟨ch, hc⟩
  rcases writeFile_cases hw with ⟨_, hr⟩ | ⟨i, entry, t, ht, hwd⟩
  · exact absurd hr (by decide)
  have hcs := hm.clusterSize_lt
  rcases writeData_wrote hwd ht.lt (by simp only; omega) with ⟨p, l, h1, q, hwr, hk, hq, hfree⟩
  have hbpb : v'.bpb = v.bpb := hwr.bpb
  rcases Heap.rep_reachable hs with ⟨a, hrep⟩
  -- The buffer of the write is there for every read behind it.
  have hserves : Heap.Serves v'.heap v.bpb.clusterSize :=
    Heap.serves_again (hheap ▸ hrep.heap) hk hq hfree
  have hbuf' : ∀ phys', Buffer phys' v' := by
    intro phys'
    rw [Buffer, hbpb]
    exact hserves.kmalloc phys'
  have hready : v'.ready = true := by rw [hwr.ready]; exact hm.ready
  refine ⟨fun phys' buf m => ?_, fun s' phys₁ phys' u buf m hs' hu hroom => ?_,
    fun other phys' buf m hne hex => ?_⟩
  · exact read_written hm hname hsize ht hwr hbpb rfl hready hwr.entries
      (fun x _ => by rw [hwr.table]) (hbuf' phys') buf m
  · rcases remount_table hm hres hwr hu with ⟨hub, hud, hur, hue, hut⟩
    refine read_written hm hname hsize ht hwr hub hud hur hue hut ?_ buf m
    exact init_buffer hs' hu hroom
  · rcases isSome_iff_exists.mp hex with ⟨k, hk'⟩
    exact read_other hm (fun c hc => (hname c hc).1) hc ht hwr hne hk'
      ⟨h1, q, v'.heap, hk, hq, hfree⟩ (hbuf' phys') buf m

/-! ### A small volume -/

/-- A boot sector: one sector per cluster, one reserved sector, one FAT of one
    sector, and sixteen root entries. -/
def sampleBoot : Mem :=
  store (store (store (store (store (store (fun _ => 0) 11 2 512) 13 1 1) 14 2 1) 16 1 1) 17 2 16)
    22 2 1

/-- A table in which cluster 3 is a chain of its own. -/
def sampleTable : Mem := setFat (fun _ => 0) 3 0xFFFF

/-- A disk with one file, `B`, of three bytes in cluster 3. -/
def sampleDisk : Disk where
  sector := fun l =>
    if l = 0 then sampleBoot
    else if l = 1 then sampleTable
    else if l = 2 then copy (fun _ => 0) 0 (filled (newEntry (nameTo83 [0x42])) 3 3) 32
    else fun _ => 0
  writes := 0

/-- The disk, mounted. -/
def sample (h : Heap) : Fat16 where
  bpb := Bpb.parse sampleBoot
  fatTable := sampleTable
  fatEntries := 256
  ready := true
  disk := sampleDisk
  heap := h

theorem mounted_sample (h : Heap) : Mounted (sample h) where
  ready := rfl
  boot := rfl
  sectorSize := (by decide : (Bpb.parse sampleBoot).bytesPerSector = 512)
  fatSize := (by decide : (Bpb.parse sampleBoot).fatSize16 ≠ 0)
  numFats := (by decide : (Bpb.parse sampleBoot).numFats ≠ 0)
  entries := (by decide : 256 = (Bpb.parse sampleBoot).fatSize16 * 512 / 2)

theorem first_sample : firstClusterOf (readRootEntry (Bpb.parse sampleBoot) sampleDisk 0) = 3 := by
  decide

theorem fatAt_sample : fatAt sampleTable 3 = 0xFFFF := by decide

/-- There is a file `B`, and no file `A`. -/
theorem find_sample :
    findRootEntry (Bpb.parse sampleBoot) sampleDisk (nameTo83 [0x42]) = some 0 ∧
      findRootEntry (Bpb.parse sampleBoot) sampleDisk (nameTo83 [0x41]) = none ∧
      findFreeRootEntry (Bpb.parse sampleBoot) sampleDisk = some 1 := by
  decide

/-- The chain of the file. -/
theorem chain_sample (h : Heap) :
    FileChain (sample h).fatTable (sample h).fatEntries
      (firstClusterOf (readRootEntry (sample h).bpb (sample h).disk 0)) [3] := by
  simp only [sample]
  rw [first_sample]
  refine ⟨⟨by decide, rfl, ?_⟩, ?_, ?_⟩
  · rw [fatAt_sample]
    exact fun hc => absurd hc.2 (by decide)
  · intro x hx
    rw [List.mem_singleton.mp hx]
    decide
  · intro x hx
    rw [List.mem_singleton.mp hx, fatAt_sample]
    decide

/-- It is the only file. -/
theorem lists_sample (h : Heap) (hi : (sample h).Lists i) : i = 0 := by
  have hend : readRootEntry (Bpb.parse sampleBoot) sampleDisk 1 0 = 0x00 := by decide
  by_contra hne
  exact hi.2.1 1 (by omega) hend

theorem filesSound_sample (h : Heap) : FilesSound (sample h) := by
  refine ⟨fun _ => [3], fun i hi => ?_, fun i j hi hj hij => ?_⟩
  · rw [lists_sample h hi]
    exact chain_sample h
  · exact absurd ((lists_sample h hi).trans (lists_sample h hj).symm) hij

/-- A heap of one page. -/
def samplePhys : Nat → Nat := fun i => if i = 0 then 0x100000 else 0

/-- A new file `A` of three bytes is written to the small volume. -/
theorem written_sample :
    ∃ h v', Heap.init samplePhys (fun _ => 0) = some h ∧
      (sample h).writeFile samplePhys (fun _ _ => .ok) [0x41] (fun i => UInt8.ofNat i) 3 =
        some (v', 0) := by
  have hrun : ((Heap.init samplePhys (fun _ => 0)).bind (fun h =>
      (sample h).writeFile samplePhys (fun _ _ => .ok) [0x41] (fun i => UInt8.ofNat i) 3)).map
        Prod.snd = some 0 := by
    decide
  rcases map_eq_some_iff.mp hrun with ⟨⟨v', r⟩, hw, rfl⟩
  rcases bind_eq_some_iff.mp hw with ⟨h, hi, hw⟩
  exact ⟨h, v', hi, hw⟩

/-- The new file is read back. -/
theorem write_read_remount_sample :
    ∃ h v', (sample h).writeFile samplePhys (fun _ _ => .ok) [0x41] (fun i => UInt8.ofNat i) 3 =
        some (v', 0) ∧
      ∀ phys' buf m, (v'.readFile phys' [0x41] buf m).map Prod.snd =
        some (copy buf 0 (fun i => UInt8.ofNat i) (min 3 m), ((min 3 m : Nat) : Int)) := by
  rcases written_sample with ⟨h, v', hi, hw⟩
  have hname : ∀ c ∈ [(0x41 : UInt8)], c ≠ 0 ∧ c < 128 := List.forall_mem_singleton.mpr (by decide)
  have hres : 0 < (Bpb.parse sampleBoot).reservedSectors := by decide
  exact ⟨h, v', hw, (write_read_remount (mounted_sample h) hres (filesSound_sample h)
    (Heap.reachable_init hi) rfl hname (by decide) hw).1⟩

/-- The page allocator has nothing left. -/
def noPages : Nat → Nat := fun _ => 0

/-- Another part of the kernel holds most of the page. The rest serves the
    cluster buffer of the write and of the first read; then `init` keeps it for
    its second copy of the FAT. -/
theorem remount_takes_buffer :
    ∃ s v v' u, Heap.sessions.Reachable s ∧ Mounted (sample s.heap) ∧ FilesSound (sample s.heap) ∧
      (sample s.heap).writeFile noPages (fun _ _ => .ok) [0x41] (fun i => UInt8.ofNat i) 3 =
        some (v, 0) ∧
      (∃ buf, v.readFile noPages [0x41] (fun _ => 0) 3 = some (v', buf, 3)) ∧
      init noPages v' = some (u, 0) ∧
      ∃ w buf, u.readFile noPages [0x41] (fun _ => 0) 3 = some (w, buf, -1) := by
  have hrun : ((Heap.init samplePhys (fun _ => 0)).bind (fun h =>
      (Heap.kmalloc noPages 3500 h).bind (fun k =>
        ((sample k.1).writeFile noPages (fun _ _ => .ok) [0x41] (fun i => UInt8.ofNat i) 3).bind
          (fun v => (v.1.readFile noPages [0x41] (fun _ => 0) 3).bind (fun v' =>
            (init noPages v'.1).bind (fun u =>
              (u.1.readFile noPages [0x41] (fun _ => 0) 3).map (fun w =>
                (v.2, v'.2.2, u.2, w.2.2)))))))) = some (0, 3, 0, -1) := by
    decide
  rcases bind_eq_some_iff.mp hrun with ⟨h, hi, hrun⟩
  rcases bind_eq_some_iff.mp hrun with ⟨⟨k, p⟩, hk, hrun⟩
  rcases bind_eq_some_iff.mp hrun with ⟨⟨v, r⟩, hv, hrun⟩
  rcases bind_eq_some_iff.mp hrun with ⟨⟨v', buf, r'⟩, hv', hrun⟩
  rcases bind_eq_some_iff.mp hrun with ⟨⟨u, c⟩, hu, hrun⟩
  rcases map_eq_some_iff.mp hrun with ⟨⟨w, buf', c'⟩, hw, hcodes⟩
  simp only [Prod.mk.injEq] at hcodes
  rcases hcodes with ⟨rfl, rfl, rfl, rfl⟩
  exact ⟨_, v, v', u, Heap.reachable_kmalloc (Heap.reachable_init hi) hk, mounted_sample k,
    filesSound_sample k, hv, ⟨buf, hv'⟩, hu, w, buf', hw⟩

end SysRust.Fat16
