import SysRust.Theory.Fat16.Sectors
import SysRust.Theory.Fat16.Table

/-!
# What `write_file` Does

One theorem for the write loop and one for the function around it. The loop
theorem follows the list `l` of the clusters taken so far: they are `Grown`
from the table at the start, the disk has changed only in them, and, as long
as no write has failed, they are `Taken`: the lowest free ones in ascending
order, each with the bytes for its place, and the offset is what that many
rounds make of it. If nothing wraps around, they hold the data written so far
(`Filled`).

`write_file` has many exits. `Effect` is what they have in common: the table
has grown by some clusters, and the directory is either the old one or has
one entry rewritten to start at them. The first of the two happens for one
of four reasons, which it also records. `Wrote` is the exit that returns `0`.

## Main definitions

* `Filled`: The clusters of the new chain hold the data.
* `offsetAfter`: The offset of the write loop after a number of rounds.
* `Taken`: The cursor of the loop as long as no write fails.
* `clusterMem`, `fileMem`: The bytes of a cluster and of a chain.
* `Blocked`: Why a call may leave the directory alone.
* `Effect`, `Wrote`: The volume after `writeData`, in general and when it
  returns `0`.

## Theorems

* `offsetAfter_eq`: The offset as long as nothing wraps around.
* `taken_append`: One round.
* `writeLoop_spec`, `writeLoop_returns`: The write loop.
* `filled_fileMem`: The chain of a filled cursor reads as the data.
* `writeData_effect`, `writeData_wrote`: The two specifications.
-/

namespace SysRust.Fat16

open List

/-- The bytes of a cluster. -/
def clusterMem (b : Bpb) (d : Disk) (c : Nat) : Mem :=
  fun i => d.sector (b.clusterLba c + i / 512) (i % 512)

/-- The bytes of the clusters `l`, one behind the other. -/
def fileMem (b : Bpb) (d : Disk) (l : List Nat) : Mem :=
  fun k => clusterMem b d (l.getD (k / b.clusterSize) 0) (k % b.clusterSize)

/-- The clusters `l` hold the bytes of the file that have been written. -/
structure Filled (b : Bpb) (buf : Mem) (size : Nat) (p : Cursor) (l : List Nat) : Prop where
  offset : p.offset = min size (b.clusterSize * l.length)
  data : ∀ k, k < l.length → ∀ j, j < b.sectorsPerCluster →
    p.disk.sector (b.clusterLba (l.getD k 0) + j) =
      window (clusterData b buf size (b.clusterSize * k)) (512 * j)

/-- A sector write to the data area may fail. -/
def DataWriteFails (ata : Nat → Nat → WriteOutcome) (b : Bpb) : Prop :=
  ∃ k l, b.firstDataSector ≤ l ∧ ata k l ≠ .ok

variable {k entries size i : Nat} {ata : Nat → Nat → WriteOutcome} {b : Bpb} {buf t entry e : Mem}
  {l : List Nat} {p : Cursor} {phys : Nat → Nat} {r : Int} {v v' : Fat16} {m n : Nat} {d : Disk}

theorem getD_snoc_left (l : List Nat) (c : Nat) (h : k < l.length) :
    (l ++ [c]).getD k 0 = l.getD k 0 := by
  simp only [getD_eq_getElem?_getD, List.getElem?_append_left h]

theorem getD_snoc_last (l : List Nat) (c : Nat) : (l ++ [c]).getD l.length 0 = c := by
  simp only [getD_eq_getElem?_getD, List.getElem?_concat_length, Option.getD_some]

theorem getD_mem (l : List Nat) (h : k < l.length) : l.getD k 0 ∈ l := by
  rw [getD_eq_getElem?_getD, List.getElem?_eq_getElem h, Option.getD_some]
  exact getElem_mem h

/-! ### The offset -/

/-- The offset of the write loop after a number of rounds. It stays where it
    is once the loop has ended. -/
def offsetAfter (b : Bpb) (size : Nat) : Nat → Nat
  | 0 => 0
  | n + 1 =>
    if offsetAfter b size n < size then
      u32 (offsetAfter b size n + writeSize b size (offsetAfter b size n))
    else offsetAfter b size n

theorem offsetAfter_succ (h : offsetAfter b size n < size) :
    offsetAfter b size (n + 1) =
      u32 (offsetAfter b size n + writeSize b size (offsetAfter b size n)) := by
  rw [offsetAfter, if_pos h]

/-- A loop that is running has been running. -/
theorem offsetAfter_running (h : offsetAfter b size n < size) (hmn : m ≤ n) :
    offsetAfter b size m < size := by
  induction n with
  | zero =>
    rw [Nat.le_zero.mp hmn]
    exact h
  | succ n ih =>
    by_cases hm : m = n + 1
    · rw [hm]
      exact h
    · refine ih ?_ (by omega)
      by_contra hend
      rw [offsetAfter, if_neg hend] at h
      exact hend h

/-- As long as the last cluster of the file ends below `2 ^ 32`, the offset
    counts whole clusters up to the size. -/
theorem offsetAfter_eq (hpos : 0 < b.clusterSize)
    (hwrap : (size + b.clusterSize - 1) / b.clusterSize * b.clusterSize < 2 ^ 32) (n : Nat) :
    offsetAfter b size n = min size (n * b.clusterSize) := by
  induction n with
  | zero => rw [offsetAfter, Nat.zero_mul, Nat.min_zero]
  | succ n ih =>
    have hmul : (n + 1) * b.clusterSize = n * b.clusterSize + b.clusterSize := Nat.succ_mul _ _
    rw [offsetAfter]
    by_cases hlt : offsetAfter b size n < size
    · have hn : offsetAfter b size n = n * b.clusterSize := by omega
      have hlast : n + 1 ≤ (size + b.clusterSize - 1) / b.clusterSize := by
        rw [Nat.le_div_iff_mul_le hpos]
        omega
      have hbound : (n + 1) * b.clusterSize < 2 ^ 32 :=
        Nat.lt_of_le_of_lt (Nat.mul_le_mul_right _ hlast) hwrap
      have hu : u32 (n * b.clusterSize + b.clusterSize) = n * b.clusterSize + b.clusterSize :=
        u32_of_lt (by omega)
      rw [if_pos hlt, hn, writeSize, hu]
      by_cases hbig : n * b.clusterSize + b.clusterSize > size
      · rw [if_pos hbig, u32_of_lt (by omega)]
        omega
      · rw [if_neg hbig, hu]
        omega
    · rw [if_neg hlt]
      omega

/-! ### The clusters taken -/

/-- The clusters `l` have been taken from the table `t` and the disk `d`: the
    lowest free ones, in ascending order, each with the bytes for its place. -/
structure Taken (b : Bpb) (entries : Nat) (buf : Mem) (size : Nat) (t : Mem) (d : Disk)
    (p : Cursor) (l : List Nat) : Prop where
  grown : Grown t entries p l
  sorted : l.Pairwise (fun x y => x < y)
  least : ∀ x ∈ l, ∀ y, 2 ≤ y → y < x → fatAt t y = 0 → y ∈ l
  offset : p.offset = offsetAfter b size l.length
  data : ∀ k, k < l.length → ∀ j, j < b.sectorsPerCluster →
    p.disk.sector (b.clusterLba (l.getD k 0) + j) =
      window (clusterData b buf size (offsetAfter b size k)) (512 * j)
  below : ∀ s, s < b.firstDataSector → p.disk.sector s = d.sector s

/-- The cursor that `write_file` starts with. -/
def Cursor.start (t : Mem) (d : Disk) : Cursor where
  table := t
  disk := d
  firstCluster := 0
  prevCluster := 0
  offset := 0

theorem taken_start (b : Bpb) (entries : Nat) (buf : Mem) (size : Nat) (t : Mem) (d : Disk) :
    Taken b entries buf size t d (Cursor.start t d) [] where
  grown := grown_start t entries d
  sorted := List.Pairwise.nil
  least := forall_mem_nil _
  offset := rfl
  data := fun k hk => absurd hk (Nat.not_lt_zero k)
  below := fun _ _ => rfl

/-- One round of the loop. -/
theorem taken_append {q : Cursor} (h : Taken b entries buf size t d p l) (hlt : p.offset < size)
    (hq : appendCluster entries p = some q)
    (hw : (writeCluster ata b q.prevCluster (clusterData b buf size p.offset) q.disk).2 = true) :
    Taken b entries buf size t d
      { q with
        disk := (writeCluster ata b q.prevCluster (clusterData b buf size p.offset) q.disk).1
        offset := u32 (p.offset + writeSize b size p.offset) } (l ++ [q.prevCluster]) := by
  rcases grown_append h.grown hq with ⟨hg, hc, hge, hd, _, hleast⟩
  have hfree : fatAt t q.prevCluster = 0 :=
    (hg.fresh _ (mem_append_right _ mem_cons_self)).1
  -- A free cluster below the new one would have been found instead.
  have hlow : ∀ y, 2 ≤ y → y < q.prevCluster → fatAt t y = 0 → y ∈ l := by
    intro y h2 hy h0
    by_contra hyl
    exact hleast y h2 hy ((h.grown.frame y hyl).trans h0)
  refine ⟨hg.at_disk _ _, ?_, ?_, ?_, ?_, ?_⟩
  · refine pairwise_append.mpr ⟨h.sorted, pairwise_singleton _ _, fun x hx y hy => ?_⟩
    rw [mem_singleton.mp hy]
    by_contra hnot
    have hne : x ≠ q.prevCluster := fun he => hc (he ▸ hx)
    exact hc (h.least x hx _ hge (by omega) hfree)
  · intro x hx y h2 hyx h0
    rcases mem_append.mp hx with hx | hx
    · exact mem_append_left _ (h.least x hx y h2 hyx h0)
    · rw [mem_singleton.mp hx] at hyx
      exact mem_append_left _ (hlow y h2 hyx h0)
  · rw [length_append, length_singleton, h.offset, offsetAfter_succ (h.offset ▸ hlt)]
  · intro k hk j hj
    rw [length_append, length_singleton] at hk
    by_cases hkl : k < l.length
    · have hmem := getD_mem l hkl
      have hne : l.getD k 0 ≠ q.prevCluster := fun he => hc (he ▸ hmem)
      rw [getD_snoc_left l _ hkl,
        writeCluster_other _ _ _ _ (h.grown.fresh _ hmem).2.1 hne hj, hd]
      exact h.data k hkl j hj
    · have hk' : k = l.length := by omega
      rw [hk', getD_snoc_last, ← h.offset]
      exact writeCluster_ok hw hj
  · intro s hs
    rw [← h.below s hs, ← hd]
    exact writeCluster_below _ _ _ _ _ hs

/-- As long as nothing wraps around, the rounds are those of whole clusters. -/
theorem Taken.filled (h : Taken b entries buf size t d p l) (hpos : 0 < b.clusterSize)
    (hcs : size + b.clusterSize < 2 ^ 32)
    (hrun : ∀ k, k < l.length → offsetAfter b size k < size) : Filled b buf size p l := by
  have hwrap : (size + b.clusterSize - 1) / b.clusterSize * b.clusterSize < 2 ^ 32 :=
    Nat.lt_of_le_of_lt (Nat.div_mul_le_self _ _) (by omega)
  constructor
  · rw [h.offset, offsetAfter_eq hpos hwrap, Nat.mul_comm]
  · intro k hk j hj
    have heq := offsetAfter_eq hpos hwrap k
    have hlt := hrun k hk
    rw [Nat.mul_comm] at heq
    rw [h.data k hk j hj, show offsetAfter b size k = b.clusterSize * k by omega]

/-! ### The loop -/

/-- The write loop from a cursor that has taken the clusters `l`. -/
theorem writeLoop_spec (d : Disk) (fuel : Nat) {w : Cursor × Bool} (hg : Grown t entries p l)
    (hw : writeLoop ata b entries buf size fuel p = some w) :
    ∃ l', Grown t entries w.1 l' ∧ l ⊆ l' ∧
      (∀ s, s < b.firstDataSector → w.1.disk.sector s = p.disk.sector s) ∧
      (∀ x, x ∉ l' → 2 ≤ x → ∀ j, j < b.sectorsPerCluster →
        w.1.disk.sector (b.clusterLba x + j) = p.disk.sector (b.clusterLba x + j)) ∧
      (w.2 = false → (∀ j, 2 ≤ j → j < u16 entries → fatAt w.1.table j ≠ 0) ∨
        DataWriteFails ata b) ∧
      (w.2 = true → Taken b entries buf size t d p l →
        (∀ k, k < l.length → offsetAfter b size k < size) →
        Taken b entries buf size t d w.1 l' ∧
          (∀ k, k < l'.length → offsetAfter b size k < size) ∧ size ≤ w.1.offset) := by
  induction fuel generalizing p l with
  | zero => cases hw
  | succ fuel ih =>
    rw [writeLoop] at hw
    by_cases hlt : p.offset < size
    · rw [if_pos hlt] at hw
      cases hq : appendCluster entries p with
      | none =>
        -- The disk is full.
        simp only [hq, Option.some.injEq] at hw
        subst hw
        exact ⟨l, hg, fun x hx => hx, fun s _ => rfl, fun x _ _ j _ => rfl,
          fun _ => Or.inl (grown_full hq), fun h => absurd h Bool.false_ne_true⟩
      | some q =>
        rcases grown_append hg hq with ⟨hgq, _, hge, hd, _⟩
        simp only [hq] at hw
        -- What the write does to the disk, whether it succeeds or not.
        have hbelow : ∀ s, s < b.firstDataSector → (writeCluster ata b q.prevCluster
            (clusterData b buf size p.offset) q.disk).1.sector s = p.disk.sector s :=
          fun s hs => by rw [writeCluster_below _ _ _ _ _ hs, hd]
        have hother : ∀ x, x ∉ l ++ [q.prevCluster] → 2 ≤ x → ∀ j, j < b.sectorsPerCluster →
            (writeCluster ata b q.prevCluster (clusterData b buf size p.offset)
              q.disk).1.sector (b.clusterLba x + j) = p.disk.sector (b.clusterLba x + j) := by
          intro x hx h2 j hj
          rw [mem_append, mem_singleton, not_or] at hx
          rw [writeCluster_other _ _ _ _ h2 hx.2 hj, hd]
        by_cases hwc : (writeCluster ata b q.prevCluster (clusterData b buf size p.offset)
            q.disk).2 = false
        · rw [if_pos hwc, Option.some.injEq] at hw
          subst hw
          refine ⟨_, hgq.at_disk _ _, subset_append_left _ _, hbelow, hother,
            fun _ => Or.inr ?_, fun h => absurd h Bool.false_ne_true⟩
          by_contra hok
          simp only [DataWriteFails, not_exists, not_and, not_not] at hok
          rw [writeCluster_true hge hok] at hwc
          exact Bool.noConfusion hwc
        · rw [if_neg hwc] at hw
          have hok := Bool.eq_true_of_not_eq_false hwc
          rcases ih (hgq.at_disk _ _) hw with ⟨l', hgl, hsub, hb', ho', hfail, hfill⟩
          refine ⟨l', hgl, fun x hx => hsub (mem_append_left _ hx),
            fun s hs => (hb' s hs).trans (hbelow s hs), fun x hx h2 j hj => ?_, hfail,
            fun h1 ht hrun => hfill h1 (taken_append ht hlt hq hok) (fun k hk => ?_)⟩
          · exact (ho' x hx h2 j hj).trans (hother x (fun hm => hx (hsub hm)) h2 j hj)
          · rw [length_append, length_singleton] at hk
            exact offsetAfter_running (ht.offset ▸ hlt) (by omega)
    · rw [if_neg hlt, Option.some.injEq] at hw
      subst hw
      exact ⟨l, hg, fun x hx => hx, fun s _ => rfl, fun x _ _ j _ => rfl,
        fun h => absurd h.symm Bool.false_ne_true, fun _ ht hrun => ⟨ht, hrun, Nat.not_lt.mp hlt⟩⟩

/-- Every round takes another cluster, so the loop ends within its bound. -/
theorem writeLoop_returns (ata : Nat → Nat → WriteOutcome) (b : Bpb) (buf : Mem) (size fuel : Nat)
    (hg : Grown t entries p l) (hf : 2 ^ 16 ≤ fuel + l.length) :
    ∃ w, writeLoop ata b entries buf size fuel p = some w := by
  fun_induction writeLoop ata b entries buf size fuel p generalizing l with
  | case1 p =>
    -- There are not that many clusters.
    have hsub : l ⊆ List.range (2 ^ 16 - 1) := by
      intro x hx
      have hlt := (hg.fresh x hx).2.2
      simp only [u16] at hlt
      exact mem_range.mpr (by omega)
    have hle := (subperm_of_subset hg.nodup hsub).length_le
    rw [length_range] at hle
    omega
  | case2 | case3 | case5 => exact ⟨_, rfl⟩
  | case4 fuel p _ q hq =>
    rename_i ih
    refine ih ((grown_append hg hq).1.at_disk _ _) ?_
    rw [length_append, length_singleton]
    omega

/-- The cluster and the sector of a byte of a chain. -/
theorem cluster_of_byte {k : Nat} (hpos : 0 < b.clusterSize) (hk : k < b.clusterSize * l.length) :
    k / b.clusterSize < l.length ∧ k % b.clusterSize / 512 < b.sectorsPerCluster := by
  have hr : k % b.clusterSize < b.clusterSize := Nat.mod_lt _ hpos
  constructor
  · rw [Nat.div_lt_iff_lt_mul hpos, Nat.mul_comm]
    exact hk
  · simp only [Bpb.clusterSize] at hr ⊢
    omega

/-- When all of the data is written, the chain reads as the data. -/
theorem filled_fileMem (hf : Filled b buf size p l) (hend : size ≤ p.offset)
    (hcs : size + b.clusterSize < 2 ^ 32) :
    size ≤ b.clusterSize * l.length ∧ AgreeOn (fileMem b p.disk l) buf 0 size := by
  have hoff := hf.offset
  have hlen : size ≤ b.clusterSize * l.length := by omega
  refine ⟨hlen, fun k _ hk => ?_⟩
  have hpos : 0 < b.clusterSize := Nat.pos_of_ne_zero (fun h0 => by
    rw [h0, Nat.zero_mul] at hlen; omega)
  rcases cluster_of_byte (l := l) hpos (by omega : k < b.clusterSize * l.length) with ⟨hq, hj⟩
  have hr : k % b.clusterSize < b.clusterSize := Nat.mod_lt _ hpos
  have hdm := Nat.div_add_mod k b.clusterSize
  have hu : u32 (b.clusterSize * (k / b.clusterSize) + b.clusterSize) =
      b.clusterSize * (k / b.clusterSize) + b.clusterSize := u32_of_lt (by omega)
  simp only [fileMem, clusterMem]
  rw [hf.data _ hq _ hj, window, Nat.div_add_mod, clusterData, copy_inside, Nat.sub_zero, window,
    hdm]
  refine ⟨Nat.zero_le _, ?_⟩
  -- The byte lies in front of the padding.
  rw [writeSize, hu]
  by_cases hbig : b.clusterSize * (k / b.clusterSize) + b.clusterSize > size
  · rw [if_pos hbig]; omega
  · rw [if_neg hbig]; omega

/-! ### The function around the loop -/

/-- Why a call leaves the directory as it is: no buffer, no free cluster, or a
    failed write to the data area or to the directory. -/
inductive Blocked (phys : Nat → Nat) (ata : Nat → Nat → WriteOutcome) (v : Fat16) (t : Mem) : Prop
  | noBuffer (h : Heap) : Heap.kmalloc phys v.bpb.clusterSize v.heap = some (h, 0) →
      Blocked phys ata v t
  | full : (∀ j, 2 ≤ j → j < u16 v.fatEntries → fatAt t j ≠ 0) → Blocked phys ata v t
  | write (k l : Nat) : v.bpb.firstRootSector ≤ l → ata k l ≠ .ok → Blocked phys ata v t

/-- What every exit of `writeData` has in common: the table has grown by the
    clusters `l`, and the directory is the old one or has its entry `i`
    rewritten to start at them. -/
structure Effect (phys : Nat → Nat) (ata : Nat → Nat → WriteOutcome) (size i : Nat) (entry : Mem)
    (v v' : Fat16) (p : Cursor) (l : List Nat) : Prop where
  bpb : v'.bpb = v.bpb
  entries : v'.fatEntries = v.fatEntries
  ready : v'.ready = v.ready
  table : v'.fatTable = p.table
  grown : Grown v.fatTable v.fatEntries p l
  dir : ((∀ j, j < v.bpb.rootEntryCount →
        readRootEntry v.bpb v'.disk j = readRootEntry v.bpb v.disk j) ∧
      Blocked phys ata v v'.fatTable) ∨
    DirUpdate v.bpb.rootEntryCount (readRootEntry v.bpb v.disk) (readRootEntry v.bpb v'.disk) i
      (filled entry p.firstCluster size)

/-- The exit of `writeData` that returns `0`: the clusters `l` hold the data,
    the entry starts at them, the other clusters are as they were, and the
    first copy of the FAT on disk is the table. -/
structure Wrote (buf : Mem) (size i : Nat) (entry : Mem) (v v' : Fat16) (p : Cursor)
    (l : List Nat) : Prop where
  bpb : v'.bpb = v.bpb
  entries : v'.fatEntries = v.fatEntries
  ready : v'.ready = v.ready
  table : v'.fatTable = p.table
  grown : Grown v.fatTable v.fatEntries p l
  dir : DirUpdate v.bpb.rootEntryCount (readRootEntry v.bpb v.disk) (readRootEntry v.bpb v'.disk) i
    (filled entry p.firstCluster size)
  holds : size ≤ v.bpb.clusterSize * l.length ∧ AgreeOn (fileMem v.bpb v'.disk l) buf 0 size
  others : ∀ x, x ∉ l → 2 ≤ x → ∀ j, j < v.bpb.sectorsPerCluster →
    v'.disk.sector (v.bpb.clusterLba x + j) = v.disk.sector (v.bpb.clusterLba x + j)
  flushed : v.bpb.numFats ≠ 0 → ∀ s, s < v.bpb.fatSize16 →
    v'.disk.sector (v.bpb.firstFatSector + s) = window p.table (512 * s)
  boot : ∀ s, s < v.bpb.firstFatSector → v'.disk.sector s = v.disk.sector s

/-- The ways through `writeData`. -/
theorem writeData_cases (h : writeData phys ata buf size i entry v = some (v', r)) :
    ∃ h1 p, Heap.kmalloc phys v.bpb.clusterSize v.heap = some (h1, p) ∧
      ((p = 0 ∧ v' = { v with heap := h1 } ∧ r = -1) ∨
        p ≠ 0 ∧ ∃ w h2, writeLoop ata v.bpb v.fatEntries buf size (2 ^ 16)
            { table := v.fatTable, disk := v.disk, firstCluster := 0, prevCluster := 0,
              offset := 0 } = some w ∧ Heap.kfree p h1 = some h2 ∧
          ((w.2 = false ∧ r = -1 ∧
              v' = { v with fatTable := w.1.table, disk := w.1.disk, heap := h2 }) ∨
            (w.2 = true ∧ (v', r) = finishWrite ata i (filled entry w.1.firstCluster size)
              { v with fatTable := w.1.table, disk := w.1.disk, heap := h2 }))) := by
  rcases Option.bind_eq_some_iff.mp h with ⟨⟨h1, p⟩, hk, h⟩
  refine ⟨h1, p, hk, ?_⟩
  by_cases hp : p = 0
  · simp only [if_pos hp, Option.some.injEq, Prod.mk.injEq] at h
    exact Or.inl ⟨hp, h.1.symm, h.2.symm⟩
  · simp only [if_neg hp] at h
    rcases Option.bind_eq_some_iff.mp h with ⟨w, hw, h⟩
    rcases Option.map_eq_some_iff.mp h with ⟨h2, hf, h⟩
    refine Or.inr ⟨hp, w, h2, hw, hf, ?_⟩
    by_cases hok : w.2 = false
    · simp only [if_pos hok, Prod.mk.injEq] at h
      exact Or.inl ⟨hok, h.2.symm, h.1.symm⟩
    · simp only [if_neg hok] at h
      exact Or.inr ⟨Bool.eq_true_of_not_eq_false hok, h.symm⟩

theorem finishWrite_code (ata : Nat → Nat → WriteOutcome) (i : Nat) (e : Mem) (v : Fat16) :
    (finishWrite ata i e v).2 = 0 ∨ (finishWrite ata i e v).2 = -1 := by
  unfold finishWrite
  by_cases hw : (writeRootEntry ata v.bpb i e v.disk).2 = false
  · simp only [if_pos hw, or_true]
  · simp only [if_neg hw]
    by_cases hf : (fatFlush ata v.bpb v.fatTable (writeRootEntry ata v.bpb i e v.disk).1).2 = false
    · exact Or.inr (if_pos hf)
    · exact Or.inl (if_neg hf)

/-- The end of `write_file` changes the disk only. -/
theorem finishWrite_eq (h : (v', r) = finishWrite ata i e v) : ∃ d, v' = { v with disk := d } := by
  unfold finishWrite at h
  by_cases hw : (writeRootEntry ata v.bpb i e v.disk).2 = false
  · simp only [if_pos hw, Prod.mk.injEq] at h
    exact ⟨_, h.1⟩
  · simp only [if_neg hw, Prod.mk.injEq] at h
    exact ⟨_, h.1⟩

/-- The directory behind the end of `write_file`: the entry is rewritten, or
    the write of its sector failed. -/
theorem finishWrite_dir (h : (v', r) = finishWrite ata i e v) :
    (r = -1 ∧ readRootEntry v.bpb v'.disk = readRootEntry v.bpb v.disk ∧
        ∃ k, ata k (v.bpb.firstRootSector + i / 16) ≠ .ok) ∨
      DirUpdate v.bpb.rootEntryCount (readRootEntry v.bpb v.disk)
        (readRootEntry v.bpb v'.disk) i e := by
  unfold finishWrite at h
  have hcases := writeRootEntry_cases ata v.bpb i e v.disk
  by_cases hw : (writeRootEntry ata v.bpb i e v.disk).2 = false
  · simp only [if_pos hw, Prod.mk.injEq] at h
    rw [h.1]
    refine hcases.imp (fun hc => ⟨h.2, hc.2, ?_⟩) id
    by_contra hok
    simp only [not_exists, not_not] at hok
    have htrue := writeSector_true (copy (v.disk.sector (v.bpb.firstRootSector + i / 16))
      (i % 16 * 32) e 32) v.disk hok
    rw [writeRootEntry, htrue] at hw
    exact Bool.noConfusion hw
  · simp only [if_neg hw, Prod.mk.injEq] at h
    -- The flush stays in front of the directory.
    have hdir : readRootEntry v.bpb v'.disk =
        readRootEntry v.bpb (writeRootEntry ata v.bpb i e v.disk).1 := by
      funext j
      rw [h.1, readRootEntry, readRootEntry, fatFlush_outside _ _ _ _ (Or.inr (by omega))]
    rw [hdir]
    rcases hcases with hc | hc
    · exact absurd hc.1 hw
    · exact Or.inr hc

theorem dirUpdate_congr {count : Nat} {dir0 dir dir' : Nat → Mem}
    (h : ∀ j, j < count → dir j = dir0 j) (hu : DirUpdate count dir dir' i e) :
    DirUpdate count dir0 dir' i e :=
  ⟨hu.1, fun j hj hji => h j hj ▸ hu.2 j hj hji⟩

/-- Every way through `writeData` has the common effect. -/
theorem writeData_effect (h : writeData phys ata buf size i entry v = some (v', r)) :
    ∃ p l, Effect phys ata size i entry v v' p l ∧ (r = 0 →
      DirUpdate v.bpb.rootEntryCount (readRootEntry v.bpb v.disk) (readRootEntry v.bpb v'.disk) i
        (filled entry p.firstCluster size)) := by
  have hstart := grown_start v.fatTable v.fatEntries v.disk
  rcases writeData_cases h with ⟨h1, p, hk, ⟨rfl, rfl, rfl⟩ | ⟨hp, w, h2, hw, _, hend⟩⟩
  · exact ⟨_, [], ⟨rfl, rfl, rfl, rfl, hstart, Or.inl ⟨fun j _ => rfl, Blocked.noBuffer h1 hk⟩⟩,
      fun h0 => absurd h0 (by decide)⟩
  · rcases writeLoop_spec v.disk (2 ^ 16) hstart hw with ⟨l, hg, _, hbelow, _, hfail, _⟩
    -- The data is behind the directory.
    have hsame : ∀ j, j < v.bpb.rootEntryCount →
        readRootEntry v.bpb w.1.disk j = readRootEntry v.bpb v.disk j := by
      intro j hj
      rw [readRootEntry, readRootEntry, hbelow _ (rootSector_lt v.bpb hj)]
    rcases hend with ⟨hf, rfl, rfl⟩ | ⟨_, hfin⟩
    · refine ⟨w.1, l, ⟨rfl, rfl, rfl, rfl, hg, Or.inl ⟨hsame, ?_⟩⟩, fun h0 => absurd h0 (by decide)⟩
      rcases hfail hf with hfull | ⟨k, s, hs, hata⟩
      · exact Blocked.full hfull
      · exact Blocked.write k s (Nat.le_trans (Nat.le_add_right _ _) hs) hata
    · have hdir := finishWrite_dir hfin
      rcases finishWrite_eq hfin with ⟨d, rfl⟩
      rcases hdir with ⟨rfl, hd, k, hata⟩ | hu
      · have hold : ∀ j, j < v.bpb.rootEntryCount →
            readRootEntry v.bpb d j = readRootEntry v.bpb v.disk j := fun j hj =>
          (congrFun hd j).trans (hsame j hj)
        exact ⟨w.1, l, ⟨rfl, rfl, rfl, rfl, hg, Or.inl ⟨hold, Blocked.write k _
          (Nat.le_add_right _ _) hata⟩⟩, fun h0 => absurd h0 (by decide)⟩
      · have hnew := dirUpdate_congr hsame hu
        exact ⟨w.1, l, ⟨rfl, rfl, rfl, rfl, hg, Or.inr hnew⟩, fun _ => hnew⟩

/-- The end of `write_file` that returns `0` has written the entry and all of
    the FAT, and nothing else. -/
theorem finishWrite_ok (h : (v', (0 : Int)) = finishWrite ata i e v)
    (hi : i < v.bpb.rootEntryCount) :
    DirUpdate v.bpb.rootEntryCount (readRootEntry v.bpb v.disk) (readRootEntry v.bpb v'.disk) i e ∧
      (∀ s, v.bpb.firstDataSector ≤ s → v'.disk.sector s = v.disk.sector s) ∧
      (∀ s, s < v.bpb.firstFatSector → v'.disk.sector s = v.disk.sector s) ∧
      (v.bpb.numFats ≠ 0 → ∀ s, s < v.bpb.fatSize16 →
        v'.disk.sector (v.bpb.firstFatSector + s) = window v.fatTable (512 * s)) := by
  have hroot := rootSector_lt v.bpb hi
  have hle : v.bpb.firstFatSector ≤ v.bpb.firstRootSector := Nat.le_add_right _ _
  have hdir := finishWrite_dir h
  unfold finishWrite at h
  by_cases hw : (writeRootEntry ata v.bpb i e v.disk).2 = false
  · simp only [if_pos hw, Prod.mk.injEq] at h
    exact absurd h.2 (by decide)
  · simp only [if_neg hw, Prod.mk.injEq] at h
    have hflush : (fatFlush ata v.bpb v.fatTable
        (writeRootEntry ata v.bpb i e v.disk).1).2 = true := by
      by_contra hf
      rw [Bool.not_eq_true] at hf
      rw [if_pos hf] at h
      exact absurd h.2 (by decide)
    have hother : ∀ s, s ≠ v.bpb.firstRootSector + i / 16 →
        (writeRootEntry ata v.bpb i e v.disk).1.sector s = v.disk.sector s :=
      fun s hs => writeSector_other _ _ _ hs
    refine ⟨?_, fun s hs => ?_, fun s hs => ?_, fun hn s hs => ?_⟩
    · rcases hdir with ⟨hr, _⟩ | hu
      · exact absurd hr (by decide)
      · exact hu
    · rw [h.1, fatFlush_outside _ _ _ _ (Or.inr (by omega)), hother s (by omega)]
    · rw [h.1, fatFlush_outside _ _ _ _ (Or.inl hs), hother s (by omega)]
    · rw [h.1]; exact fatFlush_ok hflush hn hs

/-- The heap has no block of no bytes. -/
theorem kmalloc_pos {h h1 : Heap} {q : Nat} (hk : Heap.kmalloc phys size h = some (h1, q))
    (hq : q ≠ 0) : 0 < size := by
  refine Nat.pos_of_ne_zero (fun hz => hq ?_)
  rw [Heap.kmalloc, if_pos hz, Option.some.injEq, Prod.mk.injEq] at hk
  exact hk.2.symm

/-- A chain reads the same where the disk is the same on its clusters. -/
theorem fileMem_congr {d d' : Disk} (hpos : 0 < b.clusterSize)
    (h : ∀ x ∈ l, ∀ j, j < b.sectorsPerCluster →
      d'.sector (b.clusterLba x + j) = d.sector (b.clusterLba x + j)) :
    AgreeOn (fileMem b d' l) (fileMem b d l) 0 (b.clusterSize * l.length) := by
  intro k _ hk
  rcases cluster_of_byte hpos hk with ⟨hq, hj⟩
  simp only [fileMem, clusterMem]
  rw [h _ (getD_mem l hq) _ hj]

/-- The exit that returns `0`, with the heap it leaves. -/
theorem writeData_wrote (h : writeData phys ata buf size i entry v = some (v', 0))
    (hi : i < v.bpb.rootEntryCount) (hcs : size + v.bpb.clusterSize < 2 ^ 32) :
    ∃ p l h1 q, Wrote buf size i entry v v' p l ∧
      Heap.kmalloc phys v.bpb.clusterSize v.heap = some (h1, q) ∧ q ≠ 0 ∧
      Heap.kfree q h1 = some v'.heap := by
  have hstart := grown_start v.fatTable v.fatEntries v.disk
  rcases writeData_cases h with ⟨h1, q, hk, ⟨_, _, hr⟩ | ⟨hq, w, h2, hw, hfree, hend⟩⟩
  · exact absurd hr (by decide)
  rcases hend with ⟨_, hr, _⟩ | ⟨hok, hfin⟩
  · exact absurd hr (by decide)
  rcases writeLoop_spec v.disk (2 ^ 16) hstart hw with ⟨l, hg, _, hbelow, hother, _, hfill⟩
  rcases hfill hok (taken_start v.bpb v.fatEntries buf size v.fatTable v.disk)
    (fun k hk => absurd hk (Nat.not_lt_zero k)) with ⟨htaken, hrun, hsize⟩
  have hread := filled_fileMem (htaken.filled (kmalloc_pos hk hq) hcs hrun) hsize hcs
  have hle : v.bpb.firstFatSector ≤ v.bpb.firstDataSector :=
    Nat.le_trans (Nat.le_add_right _ _) (Nat.le_add_right _ _)
  rcases finishWrite_ok hfin hi with ⟨hdir, hdata, hboot, hflush⟩
  rcases finishWrite_eq hfin with ⟨d, rfl⟩
  -- The clusters are behind everything that the end of the call writes.
  have hclusters : ∀ x j, d.sector (v.bpb.clusterLba x + j) =
      w.1.disk.sector (v.bpb.clusterLba x + j) :=
    fun x j => hdata _ (Nat.le_trans (clusterLba_ge v.bpb x) (Nat.le_add_right _ _))
  refine ⟨w.1, l, h1, q, ⟨rfl, rfl, rfl, rfl, hg, ?_, ⟨hread.1, ?_⟩, ?_, hflush, ?_⟩, hk, hq, hfree⟩
  · refine dirUpdate_congr (fun j hj => ?_) hdir
    simp only [readRootEntry, hbelow _ (rootSector_lt v.bpb hj)]
  · have hsame : fileMem v.bpb d l = fileMem v.bpb w.1.disk l := by
      funext k
      simp only [fileMem, clusterMem, hclusters]
    simp only [hsame]
    exact hread.2
  · intro x hx h2 j hj
    rw [hclusters]
    exact hother x hx h2 j hj
  · intro s hs
    exact (hboot s hs).trans (hbelow s (Nat.lt_of_lt_of_le hs hle))

end SysRust.Fat16
