import Mathlib.Data.Finset.Card
import SysRust.Theory.Fat16.RoundTrip

/-!
# Running Out of Clusters

A write fails for lack of clusters when its loop asks for one and none is
free. `RunsOut` is the run of the loop that ends like that. It has taken all
the clusters that the search finds.

So the loop runs out exactly if the offset is still short of the size after
as many rounds as there are free clusters. Two things can make that happen on
a disk with room. The search for a free cluster ends at the number of entries
truncated to 16 bits, which is nothing at all for the largest table. And the
offset is a 32-bit number: if the last cluster of the file would end at
`2 ^ 32` or behind, the offset wraps around and the file starts over.

## Main definitions

* `freeBelow`: The free clusters below a bound.
* `RunsOut`: A run of the write loop that finds no free cluster.
* `OutOfClusters`: A call of `write_file` that fails for lack of clusters.

## Theorems

* `runsOut_taken`: A whole run.
* `runsOut_of_short`: A loop that needs more clusters than there are.
* `writeLoop_runsOut`, `writeFile_outOfClusters`: What the loop and the call
  return.
* `offsetAfter_lt_iff`: When the loop has ended.
* `lack_of_clusters_iff`: When a lack of clusters means a full disk.
* `lack_of_clusters_of_small`: It does on tables of fewer than 65536 entries,
  for files that end below `2 ^ 32`.
-/

namespace SysRust.Fat16

/-- The free clusters among those below `m`. -/
def freeBelow (t : Mem) (m : Nat) : Finset Nat :=
  (Finset.range m).filter (fun c => 2 ≤ c ∧ fatAt t c = 0)

variable {m n size entries : Nat} {t buf : Mem} {b : Bpb} {ata : Nat → Nat → WriteOutcome}
  {p r : Cursor} {name : List UInt8} {phys : Nat → Nat}

theorem mem_freeBelow {c : Nat} : c ∈ freeBelow t m ↔ c < m ∧ 2 ≤ c ∧ fatAt t c = 0 := by
  rw [freeBelow, Finset.mem_filter, Finset.mem_range]

/-! ### A run that ends without a cluster -/

/-- The write loop from `p` on comes to `r`, with data to write and no cluster
    free. -/
inductive RunsOut (ata : Nat → Nat → WriteOutcome) (b : Bpb) (entries : Nat) (buf : Mem)
    (size : Nat) : Cursor → Cursor → Prop
  | full (p : Cursor) : p.offset < size → appendCluster entries p = none →
      RunsOut ata b entries buf size p p
  | next (p q r : Cursor) : p.offset < size → appendCluster entries p = some q →
      (writeCluster ata b q.prevCluster (clusterData b buf size p.offset) q.disk).2 = true →
      RunsOut ata b entries buf size
        { q with
          disk := (writeCluster ata b q.prevCluster (clusterData b buf size p.offset) q.disk).1
          offset := u32 (p.offset + writeSize b size p.offset) } r →
      RunsOut ata b entries buf size p r

/-- The loop returns where the run ends. -/
theorem writeLoop_runsOut (h : RunsOut ata b entries buf size p r) (fuel : Nat) {w : Cursor × Bool}
    (hw : writeLoop ata b entries buf size fuel p = some w) : w = (r, false) := by
  induction h generalizing fuel with
  | full p hlt hnone =>
    cases fuel with
    | zero => cases hw
    | succ fuel =>
      rw [writeLoop, if_pos hlt] at hw
      simp only [hnone, Option.some.injEq] at hw
      exact hw.symm
  | next p q r hlt hsome hok _ ih =>
    cases fuel with
    | zero => cases hw
    | succ fuel =>
      have hgood : ¬ (writeCluster ata b q.prevCluster (clusterData b buf size p.offset)
          q.disk).2 = false := fun hf => Bool.false_ne_true (hf.symm.trans hok)
      rw [writeLoop, if_pos hlt] at hw
      simp only [hsome, if_neg hgood] at hw
      exact ih fuel hw

theorem appendCluster_none (h : fatScan p.table (u16 entries - 2) 2 = 0) :
    appendCluster entries p = none := by
  rw [appendCluster, fatAlloc, if_pos h, if_pos rfl]

section Run

variable {d : Disk} {l : List Nat}

/-- The clusters taken are free ones. -/
theorem Taken.subset (h : Taken b entries buf size t d p l) :
    l.toFinset ⊆ freeBelow t (u16 entries) := by
  intro x hx
  have hfresh := h.grown.fresh x (List.mem_toFinset.mp hx)
  exact mem_freeBelow.mpr ⟨hfresh.2.2, hfresh.2.1, hfresh.1⟩

theorem Taken.length_le (h : Taken b entries buf size t d p l) :
    l.length ≤ (freeBelow t (u16 entries)).card := by
  rw [← List.toFinset_card_of_nodup h.grown.nodup]
  exact Finset.card_le_card h.subset

/-- A run that finds no cluster has taken all that were free. -/
theorem runsOut_taken (hrun : RunsOut ata b entries buf size p r)
    (h : Taken b entries buf size t d p l) :
    ∃ l', Taken b entries buf size t d r l' ∧ l'.toFinset = freeBelow t (u16 entries) ∧
      r.offset < size := by
  induction hrun generalizing l with
  | full p hlt hnone =>
    refine ⟨l, h, Finset.Subset.antisymm h.subset (fun c hc => ?_), hlt⟩
    rcases mem_freeBelow.mp hc with ⟨hhi, hlo, hzero⟩
    rw [List.mem_toFinset]
    by_contra hcl
    exact grown_full hnone c hlo hhi ((h.grown.frame c hcl).trans hzero)
  | next p q r hlt hsome hok _ ih => exact ih (taken_append h hlt hsome hok)

/-- If as many rounds as there are free clusters do not reach the size, the
    loop runs out, as long as the disk takes the data. -/
theorem runsOut_of_short (hata : ∀ k s, b.firstDataSector ≤ s → ata k s = .ok)
    (h : Taken b entries buf size t d p l)
    (hshort : offsetAfter b size (freeBelow t (u16 entries)).card < size) :
    ∃ r, RunsOut ata b entries buf size p r := by
  -- The induction is on the number of clusters left.
  induction hn : (freeBelow t (u16 entries)).card - l.length using Nat.strong_induction_on
    generalizing p l with
  | _ n ih =>
    have hlt : p.offset < size := by
      rw [h.offset]
      exact offsetAfter_running hshort h.length_le
    cases hq : appendCluster entries p with
    | none => exact ⟨p, RunsOut.full p hlt hq⟩
    | some q =>
      have hok : (writeCluster ata b q.prevCluster (clusterData b buf size p.offset)
          q.disk).2 = true := writeCluster_true (grown_append h.grown hq).2.2.1 hata
      have hnext := taken_append h hlt hq hok
      have hle := hnext.length_le
      rw [List.length_append, List.length_singleton] at hle
      rcases ih _ (by rw [← hn, List.length_append, List.length_singleton]; omega) hnext rfl
        with ⟨r, hr⟩
      exact ⟨r, RunsOut.next p q r hlt hq hok hr⟩

end Run

/-! ### Calls that fail for lack of clusters -/

/-- The call has found its entry and released the old chain, which leaves the
    table `t`, it has its buffer, and the write loop runs out of clusters at
    `r`. -/
def OutOfClusters (phys : Nat → Nat) (ata : Nat → Nat → WriteOutcome) (name : List UInt8)
    (buf : Mem) (size : Nat) (v : Fat16) (t : Mem) (r : Cursor) : Prop :=
  v.ready = true ∧ (∃ i entry, Target v (nameTo83 name) i entry t) ∧
    (∃ h q, Heap.kmalloc phys v.bpb.clusterSize v.heap = some (h, q) ∧ q ≠ 0) ∧
    RunsOut ata v.bpb v.fatEntries buf size (Cursor.start t v.disk) r

variable {v : Fat16}

/-- A call that has found its entry goes on with the data. -/
theorem writeFile_target {i : Nat} {entry : Mem} (hr : v.ready = true)
    (ht : Target v (nameTo83 name) i entry t) :
    v.writeFile phys ata name buf size =
      writeData phys ata buf size i entry { v with fatTable := t } := by
  rw [writeFile, if_neg (by rw [hr]; exact Bool.noConfusion)]
  cases ht with
  | rewrite hf he hfree => simp only [hf, ← he, hfree, Option.bind_some]
  | create hf hslot he htab => simp only [hf, hslot, ← he, htab]

/-- Such a call returns `-1` and leaves what the loop has done. -/
theorem writeFile_outOfClusters {v' : Fat16} {n : Int}
    (h : OutOfClusters phys ata name buf size v t r)
    (hw : v.writeFile phys ata name buf size = some (v', n)) :
    n = -1 ∧ ∃ h1 q h2, Heap.kmalloc phys v.bpb.clusterSize v.heap = some (h1, q) ∧ q ≠ 0 ∧
      Heap.kfree q h1 = some h2 ∧
      v' = { v with fatTable := r.table, disk := r.disk, heap := h2 } := by
  rcases h with ⟨hr, ⟨i, entry, ht⟩, ⟨h1, q, hk, hq⟩, hrun⟩
  rw [writeFile_target hr ht] at hw
  rcases writeData_cases hw with ⟨g1, p, hg, ⟨hp, _⟩ | ⟨_, w, h2, hloop, hfree, hend⟩⟩
  · rw [hk, Option.some.injEq, Prod.mk.injEq] at hg
    exact absurd (hg.2.trans hp) hq
  · rw [hk, Option.some.injEq, Prod.mk.injEq] at hg
    rw [← hg.1, ← hg.2] at hfree
    have hwr := writeLoop_runsOut hrun _ hloop
    rcases hend with ⟨_, hn, hv⟩ | ⟨htrue, _⟩
    · refine ⟨hn, h1, q, h2, hk, hq, hfree, ?_⟩
      rw [hv, hwr]
    · rw [hwr] at htrue
      exact absurd htrue Bool.false_ne_true

/-! ### The offset, which wraps around -/

theorem u32_succ_mul (n c : Nat) : u32 (u32 (n * c) + c) = u32 ((n + 1) * c) := by
  rw [Nat.succ_mul, u32, u32, u32, Nat.mod_add_mod]

/-- A loop that is running has counted whole clusters, modulo `2 ^ 32`. -/
theorem offsetAfter_of_lt (h : offsetAfter b size n < size) :
    offsetAfter b size n = u32 (n * b.clusterSize) := by
  induction n with
  | zero => rw [Nat.zero_mul, offsetAfter, u32_of_lt (by decide)]
  | succ n ih =>
    have hn := offsetAfter_running h (Nat.le_succ n)
    have hnext : u32 (offsetAfter b size n + b.clusterSize) = u32 ((n + 1) * b.clusterSize) := by
      rw [ih hn, u32_succ_mul]
    rw [offsetAfter_succ hn, writeSize, hnext] at h ⊢
    split_ifs at h ⊢ with hlast
    · -- The size is a 32-bit number here, so the loop would have ended.
      have hsize : size < 2 ^ 32 := Nat.lt_trans hlast (Nat.mod_lt _ (by decide))
      rw [Nat.add_sub_cancel' hn.le, u32_of_lt hsize] at h
      exact absurd h (Nat.lt_irrefl _)
    · exact hnext

/-- It ends in the first round that brings the offset to the size or beyond. -/
theorem offsetAfter_lt_iff :
    offsetAfter b size n < size ↔ ∀ m ≤ n, u32 (m * b.clusterSize) < size := by
  constructor
  · intro h m hm
    have hrun := offsetAfter_running h hm
    rwa [offsetAfter_of_lt hrun] at hrun
  · intro h
    induction n with
    | zero => exact Nat.lt_of_le_of_lt (Nat.zero_le _) (h 0 (Nat.le_refl 0))
    | succ n ih =>
      have hn := ih (fun m hm => h m (Nat.le_succ_of_le hm))
      have hend := h (n + 1) (Nat.le_refl _)
      have hnext : u32 (offsetAfter b size n + b.clusterSize) = u32 ((n + 1) * b.clusterSize) := by
        rw [offsetAfter_of_lt hn, u32_succ_mul]
      rwa [offsetAfter_succ hn, writeSize, hnext, if_neg (Nat.lt_asymm hend), hnext]

/-- The number of clusters that a file of this size takes up. -/
def clustersFor (b : Bpb) (size : Nat) : Nat := (size + b.clusterSize - 1) / b.clusterSize

/-- A call that fails for lack of clusters does so on a disk that is too full,
    exactly if with a buffer and enough free clusters, some number of clusters
    that the search finds is enough modulo `2 ^ 32`. -/
theorem lack_of_clusters_iff (phys : Nat → Nat) (name : List UInt8) (buf : Mem) (size : Nat)
    (v : Fat16) (hr : v.ready = true) :
    (∀ ata t r, OutOfClusters phys ata name buf size v t r →
        (freeBelow t v.fatEntries).card < clustersFor v.bpb size) ↔
      ∀ i entry t, Target v (nameTo83 name) i entry t →
        (∃ h q, Heap.kmalloc phys v.bpb.clusterSize v.heap = some (h, q) ∧ q ≠ 0) →
        clustersFor v.bpb size ≤ (freeBelow t v.fatEntries).card →
        ∃ m ≤ (freeBelow t (u16 v.fatEntries)).card, size ≤ u32 (m * v.bpb.clusterSize) := by
  constructor
  · intro hclaim i entry t ht hbuf hroom
    by_contra hshort
    simp only [not_exists, not_and, Nat.not_le] at hshort
    -- A disk that takes all data shows the lack.
    have hata : ∀ k s, v.bpb.firstDataSector ≤ s →
        (fun _ _ => WriteOutcome.ok : Nat → Nat → WriteOutcome) k s = .ok := fun _ _ _ => rfl
    rcases runsOut_of_short hata (taken_start v.bpb v.fatEntries buf size t v.disk)
      (offsetAfter_lt_iff.mpr hshort) with ⟨r, hrun⟩
    exact absurd (hclaim _ t r ⟨hr, ⟨i, entry, ht⟩, hbuf, hrun⟩) (Nat.not_lt_of_le hroom)
  · rintro hcond ata t r ⟨_, ⟨i, entry, ht⟩, hbuf, hrun⟩
    by_contra hroom
    rcases hcond i entry t ht hbuf (Nat.le_of_not_lt hroom) with ⟨m, hm, hlong⟩
    rcases runsOut_taken hrun (taken_start v.bpb v.fatEntries buf size t v.disk) with
      ⟨l, hl, hall, hlt⟩
    rw [hl.offset, ← List.toFinset_card_of_nodup hl.grown.nodup, hall] at hlt
    exact absurd (offsetAfter_lt_iff.mp hlt m hm) (Nat.not_lt_of_le hlong)

/-- On a table of fewer than 65536 entries, and for a file whose last cluster
    ends below `2 ^ 32`, the clusters that the file needs are enough. -/
theorem lack_of_clusters_of_small (hpos : 0 < v.bpb.clusterSize) (hsmall : v.fatEntries < 65536)
    (hwrap : clustersFor v.bpb size * v.bpb.clusterSize < 2 ^ 32)
    (hroom : clustersFor v.bpb size ≤ (freeBelow t v.fatEntries).card) :
    ∃ m ≤ (freeBelow t (u16 v.fatEntries)).card, size ≤ u32 (m * v.bpb.clusterSize) := by
  have hu : u16 v.fatEntries = v.fatEntries := Nat.mod_eq_of_lt hsmall
  refine ⟨clustersFor v.bpb size, hu.symm ▸ hroom, ?_⟩
  have hdiv := Nat.div_add_mod (size + v.bpb.clusterSize - 1) v.bpb.clusterSize
  have hmod := Nat.mod_lt (size + v.bpb.clusterSize - 1) hpos
  rw [u32_of_lt hwrap, clustersFor, Nat.mul_comm]
  omega

/-- A file of three bytes on the small volume needs one of its free
    clusters. -/
theorem lack_of_clusters_sample :
    ∃ h, ∀ ata t r, OutOfClusters samplePhys ata [0x41] (fun _ => 0) 3 (sample h) t r →
      (freeBelow t (sample h).fatEntries).card < clustersFor (sample h).bpb 3 := by
  refine ⟨{ mem := fun _ => 0, head := 0, pages := 0 }, ?_⟩
  refine (lack_of_clusters_iff samplePhys [0x41] (fun _ => 0) 3 _ rfl).mpr ?_
  intro i entry t _ _ hroom
  refine lack_of_clusters_of_small ?_ (show 256 < 65536 by decide) ?_ hroom
  · exact (by decide : 0 < (Bpb.parse sampleBoot).clusterSize)
  · exact (by decide : clustersFor (Bpb.parse sampleBoot) 3 *
      (Bpb.parse sampleBoot).clusterSize < 2 ^ 32)

/-- The boot sector of a volume with the largest table, of 256 sectors. -/
def largeBoot : Mem := store sampleBoot 22 2 256

/-- An empty disk with that boot sector. -/
def largeDisk : Disk where
  sector := fun l => if l = 0 then largeBoot else fun _ => 0
  writes := 0

/-- The empty disk, mounted. -/
def large (h : Heap) : Fat16 where
  bpb := Bpb.parse largeBoot
  fatTable := fun _ => 0
  fatEntries := 65536
  ready := true
  disk := largeDisk
  heap := h

theorem mounted_large (h : Heap) : Mounted (large h) where
  ready := rfl
  boot := rfl
  sectorSize := (by decide : (Bpb.parse largeBoot).bytesPerSector = 512)
  fatSize := (by decide : (Bpb.parse largeBoot).fatSize16 ≠ 0)
  numFats := (by decide : (Bpb.parse largeBoot).numFats ≠ 0)
  entries := (by decide : 65536 = (Bpb.parse largeBoot).fatSize16 * 512 / 2)

/-- A new file on a volume that has a buffer for it, but no cluster that the
    search finds. -/
theorem outOfClusters_run (mk : Heap → Fat16) {i size : Nat} (hsize : 0 < size)
    (hready : ∀ h, (mk h).ready = true)
    (hnone : ∀ h, findRootEntry (mk h).bpb (mk h).disk (nameTo83 [0x41]) = none)
    (hslot : ∀ h, findFreeRootEntry (mk h).bpb (mk h).disk = some i)
    (hscan : ∀ h, fatScan (mk h).fatTable (u16 (mk h).fatEntries - 2) 2 = 0)
    (hrun : ((Heap.init samplePhys (fun _ => 0)).bind (fun h =>
      (Heap.kmalloc samplePhys (mk h).bpb.clusterSize (mk h).heap).bind (fun k =>
        ((mk h).writeFile samplePhys (fun _ _ => .ok) [0x41] (fun _ => 7) size).map
          (fun w => (k.2, w.2))))).map (fun x => (decide (x.1 = 0), x.2)) = some (false, -1)) :
    ∃ h v', Heap.init samplePhys (fun _ => 0) = some h ∧
      (mk h).writeFile samplePhys (fun _ _ => .ok) [0x41] (fun _ => 7) size = some (v', -1) ∧
      OutOfClusters samplePhys (fun _ _ => .ok) [0x41] (fun _ => 7) size (mk h) (mk h).fatTable
        (Cursor.start (mk h).fatTable (mk h).disk) := by
  rcases Option.map_eq_some_iff.mp hrun with ⟨⟨q, n⟩, hx, hqn⟩
  rcases Option.bind_eq_some_iff.mp hx with ⟨h, hi, hx⟩
  rcases Option.bind_eq_some_iff.mp hx with ⟨⟨h1, p⟩, hk, hx⟩
  rcases Option.map_eq_some_iff.mp hx with ⟨⟨v', m⟩, hw, hx⟩
  simp only [Prod.mk.injEq, decide_eq_false_iff_not] at hx hqn
  rw [hx.2, hqn.2] at hw
  rw [← hx.1] at hqn
  exact ⟨h, v', hi, hw, hready h, ⟨i, _, Target.create (hnone h) (hslot h) rfl rfl⟩,
    ⟨h1, p, hk, hqn.1⟩, RunsOut.full _ hsize (appendCluster_none (hscan h))⟩

/-- On the empty volume with 65536 entries, a file of one byte does not find
    the one cluster that it needs. -/
theorem lack_of_clusters_large :
    ∃ h v' t r, Mounted (large h) ∧
      (large h).writeFile samplePhys (fun _ _ => .ok) [0x41] (fun _ => 7) 1 = some (v', -1) ∧
      OutOfClusters samplePhys (fun _ _ => .ok) [0x41] (fun _ => 7) 1 (large h) t r ∧
      clustersFor (large h).bpb 1 ≤ (freeBelow t (large h).fatEntries).card := by
  have hnone : findRootEntry (Bpb.parse largeBoot) largeDisk (nameTo83 [0x41]) = none := by
    decide
  have hslot : findFreeRootEntry (Bpb.parse largeBoot) largeDisk = some 0 := by decide
  have hneed : clustersFor (Bpb.parse largeBoot) 1 = 1 := by decide
  -- The number of entries is a multiple of `2 ^ 16`, so there is nothing to search.
  have hscan : fatScan (fun _ => 0) (u16 65536 - 2) 2 = 0 := by decide
  rcases outOfClusters_run large (show 0 < 1 by decide) (fun _ => rfl) (fun _ => hnone)
    (fun _ => hslot) (fun _ => hscan) (by decide) with ⟨h, v', _, hw, hout⟩
  refine ⟨h, v', _, _, mounted_large h, hw, hout, ?_⟩
  -- Cluster 2 is free.
  have hfree : 2 ∈ freeBelow (large h).fatTable (large h).fatEntries :=
    mem_freeBelow.mpr ⟨(by decide : 2 < 65536), Nat.le_refl 2,
      (by decide : fatAt (fun _ => 0) 2 = 0)⟩
  have hcard := Finset.card_pos.mpr ⟨2, hfree⟩
  have hneed' : clustersFor (large h).bpb 1 = 1 := hneed
  omega

end SysRust.Fat16
