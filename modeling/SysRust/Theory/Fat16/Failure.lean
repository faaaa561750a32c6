import SysRust.Theory.Fat16.Directory
import SysRust.Theory.Fat16.Space

/-!
# Writes That Fail

`write_file` can give up for lack of a directory entry, of a cluster buffer or
of clusters. Only the first of the three exits comes before anything has
happened. Behind it the old chain of the file has been released in the cached
table, and nothing puts it back; and when the clusters run out, all that were
free are linked into a chain that belongs to no file.

So a call that fails leaves the table as it was only if there was nothing to
release and nothing to take. There is one more way, by accident: if no
cluster was free and the old chain is in ascending order, the loop takes
exactly its clusters and links them as they were. Then the table is the same,
but the data of the file has been overwritten, so the file reads the same
only if it started with the data that was to be written.

## Main definitions

* `SameRead`, `Unchanged`: What a call that fails is to leave alone.
* `Failure`: The three reasons for which a call fails.
* `OldChain`: The clusters that a write releases.
* `laid`: The bytes that the write loop puts into a chain.
* `Relinked`: The loop rebuilds the old chain.
* `Harmless`: The condition under which a call that fails changes nothing.

## Theorems

* `Target.released`: The table behind the release.
* `full_table_iff`: When the table is the same behind a lack of clusters.
* `failed_write_iff`: When a call that fails changes nothing.
-/

namespace SysRust.Fat16

open List

/-! ### What is to stay the same -/

/-- Reading the file gives the same bytes and the same code, for reads that
    get a cluster buffer. -/
def SameRead (v v' : Fat16) (name : List UInt8) : Prop :=
  ∀ phys phys' dst m, Buffer phys v → Buffer phys' v' →
    (v'.readFile phys' name dst m).map Prod.snd = (v.readFile phys name dst m).map Prod.snd

/-- The table is the same, and so is what the file reads as. -/
def Unchanged (v v' : Fat16) (name : List UInt8) : Prop :=
  (∀ x, x < v.fatEntries → fatAt v'.fatTable x = fatAt v.fatTable x) ∧ SameRead v v' name

variable {name : List UInt8} {phys : Nat → Nat} {v v' : Fat16} {l : List Nat} {entry t : Mem}

theorem readFile_missing (hr : v.ready = true)
    (hf : findRootEntry v.bpb v.disk (nameTo83 name) = none) (dst : Mem) (m : Nat) :
    (v.readFile phys name dst m).map Prod.snd = some (dst, -1) := by
  simp only [readFile, hr, hf, Bool.true_eq_false, if_false, Option.map_some]

theorem sameRead_of_missing (hr : v.ready = true) (hr' : v'.ready = true)
    (hf : findRootEntry v.bpb v.disk (nameTo83 name) = none)
    (hf' : findRootEntry v'.bpb v'.disk (nameTo83 name) = none) : SameRead v v' name := by
  intro phys phys' dst m _ _
  rw [readFile_missing hr hf, readFile_missing hr' hf']

/-- Two volumes with the same directory and the same chain for a file. -/
structure Agreeing (v v' : Fat16) (name : List UInt8) (i : Nat) (l : List Nat) : Prop where
  ready : v.ready = true
  ready' : v'.ready = true
  bpb : v'.bpb = v.bpb
  found : findRootEntry v.bpb v.disk (nameTo83 name) = some i
  found' : findRootEntry v.bpb v'.disk (nameTo83 name) = some i
  entry : readRootEntry v.bpb v'.disk i = readRootEntry v.bpb v.disk i
  chain : FileChain v.fatTable v.fatEntries (firstClusterOf (readRootEntry v.bpb v.disk i)) l
  chain' : FileChain v'.fatTable v'.fatEntries (firstClusterOf (readRootEntry v.bpb v.disk i)) l

/-- The number of bytes of a file with the entry `i` and the chain `l`. -/
def extent (v : Fat16) (i : Nat) (l : List Nat) : Nat :=
  min (fileSizeOf (readRootEntry v.bpb v.disk i)) (v.bpb.clusterSize * l.length)

variable {i entries : Nat} {fatName : List UInt8}

/-- Such a file reads the same if its clusters do. -/
theorem sameRead_of_agree (h : Agreeing v v' name i l)
    (hd : AgreeOn (fileMem v.bpb v'.disk l) (fileMem v.bpb v.disk l) 0 (v.extent i l)) :
    SameRead v v' name := by
  intro phys phys' dst m hb hb'
  have hspec := readFile_spec h.ready h.found h.chain hb dst m
  have hspec' := readFile_spec h.ready' (by rw [h.bpb]; exact h.found')
    (by rw [h.bpb, h.entry]; exact h.chain') hb' dst m
  have hle : min (min (fileSizeOf (readRootEntry v.bpb v.disk i)) m)
      (v.bpb.clusterSize * l.length) ≤ v.extent i l := by
    rw [extent]
    omega
  rw [h.bpb, h.entry, copy_congr (agreeOn_mono hd (Nat.le_refl _) hle)] at hspec'
  rw [hspec, hspec']

theorem agree_of_sameRead {phys' : Nat → Nat} (h : Agreeing v v' name i l) (hb : Buffer phys v)
    (hb' : Buffer phys' v') (hs : SameRead v v' name) :
    AgreeOn (fileMem v.bpb v'.disk l) (fileMem v.bpb v.disk l) 0 (v.extent i l) := by
  have hread := hs phys phys' (fun _ => 0) (fileSizeOf (readRootEntry v.bpb v.disk i)) hb hb'
  rw [readFile_spec h.ready h.found h.chain hb,
    readFile_spec h.ready' (by rw [h.bpb]; exact h.found')
      (by rw [h.bpb, h.entry]; exact h.chain') hb',
    h.bpb, h.entry, Nat.min_self, Option.some.injEq, Prod.mk.injEq] at hread
  intro x h0 hx
  have hin : 0 ≤ x ∧ x < 0 + min (fileSizeOf (readRootEntry v.bpb v.disk i))
      (v.bpb.clusterSize * l.length) := ⟨h0, by rw [Nat.zero_add]; exact hx⟩
  have hat := congrFun hread.1 x
  rwa [copy_inside hin, copy_inside hin, Nat.sub_zero] at hat

theorem findEntry_congr {b : Bpb} {d d' : Disk} (fatName : List UInt8) (n i : Nat)
    (h : ∀ j, j < i + n → readRootEntry b d' j = readRootEntry b d j) :
    findEntry b d' fatName n i = findEntry b d fatName n i := by
  induction n generalizing i with
  | zero => rfl
  | succ n ih =>
    rw [findEntry, findEntry, h i (by omega), ih (i + 1) (fun j hj => h j (by omega))]

/-! ### The old chain -/

/-- The clusters that a write to this name releases. -/
def OldChain (v : Fat16) (fatName : List UInt8) (l : List Nat) : Prop :=
  (findRootEntry v.bpb v.disk fatName = none ∧ l = []) ∨
    ∃ i, findRootEntry v.bpb v.disk fatName = some i ∧
      FileChain v.fatTable v.fatEntries (firstClusterOf (readRootEntry v.bpb v.disk i)) l

theorem oldChain_unique {l' : List Nat} (h : OldChain v fatName l) (h' : OldChain v fatName l') :
    l = l' := by
  rcases h with ⟨hf, rfl⟩ | ⟨i, hf, hl⟩
  · rcases h' with ⟨_, rfl⟩ | ⟨j, hj, _⟩
    · rfl
    · rw [hf] at hj
      cases hj
  · rcases h' with ⟨hn, _⟩ | ⟨j, hj, hl'⟩
    · rw [hf] at hn
      cases hn
    · rw [hf, Option.some.injEq] at hj
      rw [← hj] at hl'
      exact chain_unique hl.chain hl'.chain

/-- The table `t` is the one of the volume with the clusters `l` released. -/
structure Released (v : Fat16) (t : Mem) (l : List Nat) : Prop where
  zero : ∀ x ∈ l, fatAt t x = 0
  other : ∀ x, x ∉ l → fatAt t x = fatAt v.fatTable x
  used : ∀ x ∈ l, fatAt v.fatTable x ≠ 0
  link : ∀ x ∈ l, 2 ≤ x
  inRange : ∀ x ∈ l, x < v.fatEntries
  nodup : l.Nodup

/-- The table that a call allocates from. -/
theorem Target.released (h : Target v fatName i entry t) (hf : FilesSound v) :
    ∃ l, OldChain v fatName l ∧ Released v t l := by
  rcases hf with ⟨ch, hc⟩
  cases h with
  | rewrite hfind he hfree =>
    have hchain := hc.chain i (findRootEntry_some.mp hfind).1
    rcases freeChain_spec hchain hchain.length_lt with ⟨t', ht', hzero, hother⟩
    rw [he, ht', Option.some.injEq] at hfree
    subst hfree
    exact ⟨ch i, Or.inr ⟨i, hfind, hchain⟩, hzero, hother, hchain.used,
      fun x hx => (chain_links hchain.chain x hx).1, hchain.inRange, chain_nodup hchain.chain⟩
  | create hfind _ _ ht =>
    refine ⟨[], Or.inl ⟨hfind, rfl⟩, forall_mem_nil _,
      fun x _ => by rw [ht], forall_mem_nil _,
      forall_mem_nil _, forall_mem_nil _,
      nodup_nil⟩

/-! ### A lack of clusters -/

/-- The loop takes the clusters of the old chain and links them as they
    were. -/
structure Relinked (v : Fat16) (l : List Nat) : Prop where
  sorted : l.Pairwise (fun x y => x < y)
  below : ∀ x ∈ l, x < u16 v.fatEntries
  last : ∀ x, l.getLast? = some x → fatAt v.fatTable x = 0xFFFF

/-- The last of the clusters taken ends the chain. -/
theorem Grown.last {x : Nat} {p : Cursor} (h : Grown t entries p l) (hx : l.getLast? = some x) :
    x ∈ l ∧ fatAt p.table x = 0xFFFF := by
  refine ⟨mem_of_getLast? hx, ?_⟩
  rcases h.ends with ⟨hnil, _⟩ | ⟨xs, hxs, _, hend⟩
  · rw [hnil] at hx
    cases hx
  · rw [hxs, List.getLast?_append_of_ne_nil _ (cons_ne_nil _ _), List.getLast?_singleton,
      Option.some.injEq] at hx
    rw [← hx]
    exact hend

section Full

variable {b : Bpb} {buf : Mem} {size : Nat} {d : Disk} {r : Cursor} {l' : List Nat} {c : Nat}

/-- A cluster that was not released would have been free before. -/
theorem mem_of_full {x : Nat} (hrel : Released v t l)
    (hnone : freeBelow v.fatTable (u16 v.fatEntries) = ∅) (hhi : x < u16 v.fatEntries)
    (hlo : 2 ≤ x) (hzero : fatAt t x = 0) : x ∈ l := by
  by_contra hxl
  have hold : x ∈ freeBelow v.fatTable (u16 v.fatEntries) :=
    mem_freeBelow.mpr ⟨hhi, hlo, (hrel.other x hxl).symm.trans hzero⟩
  rw [hnone] at hold
  exact absurd hold (Finset.notMem_empty x)

/-- With all free clusters taken, the table is the old one only if none had
    been free before the release, and the clusters taken are the released
    ones. -/
theorem full_same_clusters (hrel : Released v t l)
    (htaken : Taken b v.fatEntries buf size t d r l')
    (hall : l'.toFinset = freeBelow t (u16 v.fatEntries)) (hmod : v.fatEntries % 256 = 0)
    (hsame : ∀ x, x < v.fatEntries → fatAt r.table x = fatAt v.fatTable x) :
    freeBelow v.fatTable (u16 v.fatEntries) = ∅ ∧ List.Perm l' l := by
  have hle := (u16_entries_le hmod).2
  have hnone : freeBelow v.fatTable (u16 v.fatEntries) = ∅ := by
    refine Finset.eq_empty_of_forall_notMem (fun x hx => ?_)
    rcases mem_freeBelow.mp hx with ⟨hhi, hlo, hzero⟩
    have hxl : x ∉ l := fun hm => hrel.used x hm hzero
    have hmem : x ∈ l' := by
      rw [← mem_toFinset, hall]
      exact mem_freeBelow.mpr ⟨hhi, hlo, (hrel.other x hxl).trans hzero⟩
    exact htaken.grown.used x hmem ((hsame x (by omega)).trans hzero)
  refine ⟨hnone, (perm_ext_iff_of_nodup htaken.grown.nodup hrel.nodup).mpr
    (fun x => ⟨?_, ?_⟩)⟩
  · intro hx
    rcases htaken.grown.fresh x hx with ⟨hzero, hlo, hhi⟩
    exact mem_of_full hrel hnone hhi hlo hzero
  · intro hx
    by_contra hxl
    refine hrel.used x hx ?_
    rw [← hsame x (hrel.inRange x hx), htaken.grown.frame x hxl]
    exact hrel.zero x hx

/-- The other way round: the loop takes exactly the released clusters. -/
theorem full_relinked (hrel : Released v t l) (htaken : Taken b v.fatEntries buf size t d r l')
    (hall : l'.toFinset = freeBelow t (u16 v.fatEntries))
    (hnone : freeBelow v.fatTable (u16 v.fatEntries) = ∅) (hlink : Relinked v l) : l' = l := by
  have hmem : ∀ x, x ∈ l' ↔ x ∈ l := by
    intro x
    rw [← mem_toFinset, hall, mem_freeBelow]
    constructor
    · rintro ⟨hhi, hlo, hzero⟩
      exact mem_of_full hrel hnone hhi hlo hzero
    · exact fun hx => ⟨hlink.below x hx, hrel.link x hx, hrel.zero x hx⟩
  refine List.Perm.eq_of_pairwise (fun x y _ _ h1 h2 => ?_) htaken.sorted hlink.sorted
    ((perm_ext_iff_of_nodup htaken.grown.nodup hrel.nodup).mpr hmem)
  omega

/-- The table behind a lack of clusters is the old one exactly if no cluster
    was free and the old chain is empty or rebuilt. In that case the clusters
    taken are those of the old chain. -/
theorem full_table_iff (hrel : Released v t l) (hchain : l ≠ [] →
      FileChain v.fatTable v.fatEntries c l) (htaken : Taken b v.fatEntries buf size t d r l')
    (hall : l'.toFinset = freeBelow t (u16 v.fatEntries)) (hmod : v.fatEntries % 256 = 0) :
    (∀ x, x < v.fatEntries → fatAt r.table x = fatAt v.fatTable x) ↔
      (freeBelow v.fatTable (u16 v.fatEntries) = ∅ ∧ Relinked v l) ∧ l' = l := by
  have hnew := grown_chain htaken.grown hmod
  constructor
  · intro hsame
    rcases full_same_clusters hrel htaken hall hmod hsame with ⟨hnone, hperm⟩
    have hl : l' = l := by
      by_cases hnil : l = []
      · rw [hnil] at hperm ⊢
        exact hperm.eq_nil
      · -- Both chains run through the same entries of the same table.
        exact chain_eq_of_perm (hchain hnil).chain
          (chain_congr (fun x hx => hsame x (hnew.inRange x hx)) hnew.chain) hperm
    refine ⟨⟨hnone, ?_, ?_, ?_⟩, hl⟩
    · rw [← hl]
      exact htaken.sorted
    · intro x hx
      rw [← hl] at hx
      exact (htaken.grown.fresh x hx).2.2
    · intro x hx
      rw [← hl] at hx
      rcases htaken.grown.last hx with ⟨hmem, hend⟩
      rw [← hsame x (hnew.inRange x hmem)]
      exact hend
  · rintro ⟨⟨hnone, hlink⟩, hl⟩ x hx
    by_cases hxl : x ∈ l
    · have hne : l ≠ [] := ne_nil_of_mem hxl
      rw [hl] at hnew
      refine chain_next_eq hnew.chain (hchain hne).chain (fun y hy => ?_) x hxl
      rw [hlink.last y hy]
      rw [← hl] at hy
      exact (htaken.grown.last hy).2
    · rw [htaken.grown.frame x (by rw [hl]; exact hxl), hrel.other x hxl]

end Full

/-! ### The calls -/

/-- The bytes that the write loop puts into a chain: each cluster gets what is
    at the offset of its round. -/
def laid (b : Bpb) (buf : Mem) (size : Nat) : Mem := fun k =>
  clusterData b buf size (offsetAfter b size (k / b.clusterSize)) (k % b.clusterSize)

theorem taken_fileMem {b : Bpb} {size : Nat} {buf : Mem} {d : Disk} {p : Cursor}
    (h : Taken b entries buf size t d p l) (hpos : 0 < b.clusterSize) :
    AgreeOn (fileMem b p.disk l) (laid b buf size) 0 (b.clusterSize * l.length) := by
  intro k _ hk
  rcases cluster_of_byte hpos hk with ⟨hq, hj⟩
  simp only [fileMem, clusterMem, laid]
  rw [h.data _ hq _ hj, window, Nat.div_add_mod]

/-- The reasons for which a call fails, other than an error of the disk. -/
inductive Failure (phys : Nat → Nat) (ata : Nat → Nat → WriteOutcome) (name : List UInt8)
    (buf : Mem) (size : Nat) (v : Fat16) : Prop
  | noSlot : v.slotFor (nameTo83 name) = none → Failure phys ata name buf size v
  | noBuffer (i : Nat) (entry t : Mem) (h : Heap) : Target v (nameTo83 name) i entry t →
      Heap.kmalloc phys v.bpb.clusterSize v.heap = some (h, 0) → Failure phys ata name buf size v
  | full (t : Mem) (r : Cursor) : OutOfClusters phys ata name buf size v t r →
      Failure phys ata name buf size v

/-- There is no slot; or there is no buffer and the old chain is empty; or
    there is a buffer, no cluster was free, and the old chain is rebuilt and
    held the data already. An empty chain meets the last two. -/
def Harmless (phys : Nat → Nat) (name : List UInt8) (buf : Mem) (size : Nat) (v : Fat16) : Prop :=
  v.slotFor (nameTo83 name) = none ∨ ∃ l, OldChain v (nameTo83 name) l ∧
    (((∃ h, Heap.kmalloc phys v.bpb.clusterSize v.heap = some (h, 0)) ∧ l = []) ∨
      (∃ h q, Heap.kmalloc phys v.bpb.clusterSize v.heap = some (h, q) ∧ q ≠ 0) ∧
        freeBelow v.fatTable (u16 v.fatEntries) = ∅ ∧ Relinked v l ∧
        ∀ i, findRootEntry v.bpb v.disk (nameTo83 name) = some i →
          AgreeOn (laid v.bpb buf size) (fileMem v.bpb v.disk l) 0 (v.extent i l))

section Calls

variable {ata : Nat → Nat → WriteOutcome} {buf : Mem} {size : Nat} {n : Int}

/-- Without a slot nothing has happened. -/
theorem unchanged_noSlot (hm : Mounted v) (hslot : v.slotFor (nameTo83 name) = none)
    (hw : v.writeFile phys ata name buf size = some (v', n)) : Unchanged v v' name := by
  rcases Option.or_eq_none_iff.mp hslot with ⟨hfind, hfree⟩
  rw [writeFile, if_neg (by rw [hm.ready]; exact Bool.noConfusion)] at hw
  simp only [hfind, hfree, Option.some.injEq, Prod.mk.injEq] at hw
  rw [← hw.1]
  exact ⟨fun x _ => rfl, sameRead_of_missing hm.ready hm.ready hfind hfind⟩

theorem kmalloc_excl {h : Heap} (hno : Heap.kmalloc phys v.bpb.clusterSize v.heap = some (h, 0)) :
    ¬ ∃ h q, Heap.kmalloc phys v.bpb.clusterSize v.heap = some (h, q) ∧ q ≠ 0 := by
  rintro ⟨h', q, hk, hq⟩
  rw [hno, Option.some.injEq, Prod.mk.injEq] at hk
  exact hq hk.2.symm

/-- Without a buffer the old chain is lost, unless it is empty. -/
theorem unchanged_noBuffer {h : Heap} (hm : Mounted v) (hf : FilesSound v)
    (ht : Target v (nameTo83 name) i entry t)
    (hno : Heap.kmalloc phys v.bpb.clusterSize v.heap = some (h, 0))
    (hw : v.writeFile phys ata name buf size = some (v', n)) :
    Unchanged v v' name ↔ Harmless phys name buf size v := by
  rcases ht.released hf with ⟨l, hold, hrel⟩
  have hv' : v' = { v with fatTable := t, heap := h } := by
    rw [writeFile_target hm.ready ht, writeData] at hw
    simp only [hno, Option.bind_some, if_true, Option.some.injEq, Prod.mk.injEq] at hw
    exact hw.1.symm
  have hharm : Harmless phys name buf size v ↔ l = [] := by
    constructor
    · rintro (hslot | ⟨l', hl', ⟨_, hnil⟩ | ⟨hyes, _⟩⟩)
      · rw [ht.slot] at hslot
        cases hslot
      · rw [oldChain_unique hold hl', hnil]
      · exact absurd hyes (kmalloc_excl hno)
    · exact fun hnil => Or.inr ⟨l, hold, Or.inl ⟨⟨h, hno⟩, hnil⟩⟩
  rw [hharm, hv']
  constructor
  · rintro ⟨hsame, _⟩
    cases l with
    | nil => rfl
    | cons x l =>
      have hx := hsame x (hrel.inRange x mem_cons_self)
      exact absurd (hx.symm.trans (hrel.zero x mem_cons_self))
        (hrel.used x mem_cons_self)
  · intro hnil
    have htab : ∀ x, fatAt t x = fatAt v.fatTable x := fun x =>
      hrel.other x (by rw [hnil]; exact not_mem_nil)
    refine ⟨fun x _ => htab x, ?_⟩
    rcases hold with ⟨hfind, _⟩ | ⟨j, hfind, hchain⟩
    · exact sameRead_of_missing hm.ready hm.ready hfind hfind
    · refine sameRead_of_agree (i := j) (l := l) ⟨hm.ready, hm.ready, rfl, hfind, hfind, rfl,
        hchain, hchain.congr (fun x _ => htab x)⟩ (agreeOn_refl _ _ _)

/-- When the clusters run out, the old chain is lost and the free clusters are
    gone, unless there were none and the loop has rebuilt the chain. -/
theorem unchanged_full {s : Heap.Session} {r : Cursor} (hm : Mounted v) (hf : FilesSound v)
    (hs : Heap.sessions.Reachable s) (hheap : v.heap = s.heap)
    (hout : OutOfClusters phys ata name buf size v t r)
    (hw : v.writeFile phys ata name buf size = some (v', n)) :
    Unchanged v v' name ↔ Harmless phys name buf size v := by
  rcases writeFile_outOfClusters hout hw with ⟨_, h1, q, h2, hk, hq, hfree, hv'⟩
  rcases hout with ⟨_, ⟨i, entry, ht⟩, _, hrun⟩
  rcases ht.released hf with ⟨l, hold, hrel⟩
  rcases runsOut_taken hrun (taken_start v.bpb v.fatEntries buf size t v.disk) with
    ⟨l', htaken, hall, _⟩
  -- Both before and behind the call there is a buffer to read with.
  have hbuf : Buffer phys v := ⟨h1, q, h2, hk, hq, hfree⟩
  rcases Heap.rep_reachable hs with ⟨a, hrep⟩
  have hbuf' : Buffer phys v' := by
    rw [Buffer, hv']
    exact (Heap.serves_again (hheap ▸ hrep.heap) hk hq hfree).kmalloc phys
  have hfile := taken_fileMem htaken hbuf.pos
  have hroot : ∀ j, j < v.bpb.rootEntryCount →
      readRootEntry v.bpb r.disk j = readRootEntry v.bpb v.disk j := fun j hj => by
    rw [readRootEntry, readRootEntry, htaken.below _ (rootSector_lt v.bpb hj)]
  have hfind : findRootEntry v.bpb r.disk (nameTo83 name) =
      findRootEntry v.bpb v.disk (nameTo83 name) :=
    findEntry_congr _ _ _ (fun j hj => hroot j (by omega))
  have hharm : Harmless phys name buf size v ↔ freeBelow v.fatTable (u16 v.fatEntries) = ∅ ∧
      Relinked v l ∧ ∀ i, findRootEntry v.bpb v.disk (nameTo83 name) = some i →
        AgreeOn (laid v.bpb buf size) (fileMem v.bpb v.disk l) 0 (v.extent i l) := by
    constructor
    · rintro (hslot | ⟨m, hm, ⟨⟨h, hno⟩, _⟩ | ⟨_, hrest⟩⟩)
      · rw [ht.slot] at hslot
        cases hslot
      · exact absurd ⟨h1, q, hk, hq⟩ (kmalloc_excl hno)
      · rw [oldChain_unique hold hm]
        exact hrest
    · exact fun hrest => Or.inr ⟨l, hold, Or.inr ⟨⟨h1, q, hk, hq⟩, hrest⟩⟩
  rw [hharm]
  rcases hold with ⟨hmiss, hnil⟩ | ⟨j, hj, hchain⟩
  · -- A new file: only the free clusters count.
    have htable := full_table_iff (c := 0) hrel (fun hne => absurd hnil hne) htaken hall
      hm.entries_mod
    constructor
    · rintro ⟨hsame, _⟩
      rw [hv'] at hsame
      rcases htable.mp hsame with ⟨⟨hnone, hlink⟩, _⟩
      refine ⟨hnone, hlink, fun x hx => ?_⟩
      rw [hmiss] at hx
      cases hx
    · rintro ⟨hnone, hlink, _⟩
      rw [hv']
      refine ⟨htable.mpr ⟨⟨hnone, hlink⟩, full_relinked hrel htaken hall hnone hlink⟩, ?_⟩
      exact sameRead_of_missing hm.ready hm.ready hmiss (hfind.trans hmiss)
  · have htable := full_table_iff hrel (fun _ => hchain) htaken hall hm.entries_mod
    have hlt := (findRootEntry_some.mp hj).1.1
    have hagreeing : (∀ x, x < v.fatEntries → fatAt r.table x = fatAt v.fatTable x) →
        Agreeing v v' name j l := by
      intro hsame
      rw [hv']
      exact ⟨hm.ready, hm.ready, rfl, hj, hfind.trans hj, hroot j hlt, hchain,
        hchain.congr (fun x hx => hsame x (hchain.inRange x hx))⟩
    have hle : v.extent j l ≤ v.bpb.clusterSize * l.length := Nat.min_le_right _ _
    constructor
    · rintro ⟨hsame, hread⟩
      have hsame' : ∀ x, x < v.fatEntries → fatAt r.table x = fatAt v.fatTable x := by
        rw [hv'] at hsame
        exact hsame
      rcases htable.mp hsame' with ⟨⟨hnone, hlink⟩, hl⟩
      have hagree := agree_of_sameRead (hagreeing hsame') hbuf hbuf' hread
      refine ⟨hnone, hlink, fun x hx k h0 hk => ?_⟩
      rw [hj, Option.some.injEq] at hx
      rw [← hx] at hk
      rw [hl] at hfile
      rw [← hfile k h0 (by omega), ← hagree k h0 hk, hv']
    · rintro ⟨hnone, hlink, hdata⟩
      have hl := full_relinked hrel htaken hall hnone hlink
      have hsame := htable.mpr ⟨⟨hnone, hlink⟩, hl⟩
      refine ⟨by rw [hv']; exact hsame, sameRead_of_agree (hagreeing hsame) (fun k h0 hk => ?_)⟩
      rw [hl] at hfile
      rw [← hdata j hj k h0 hk, ← hfile k h0 (by omega), hv']

/-- A call that fails for lack of an entry, a buffer or clusters leaves the
    table and the file as they were exactly if it was harmless. -/
theorem failed_write_iff {s : Heap.Session} (hm : Mounted v) (hf : FilesSound v)
    (hs : Heap.sessions.Reachable s) (hheap : v.heap = s.heap)
    (hfail : Failure phys ata name buf size v)
    (hw : v.writeFile phys ata name buf size = some (v', n)) :
    Unchanged v v' name ↔ Harmless phys name buf size v := by
  cases hfail with
  | noSlot hslot => exact ⟨fun _ => Or.inl hslot, fun _ => unchanged_noSlot hm hslot hw⟩
  | noBuffer i entry t h ht hno => exact unchanged_noBuffer hm hf ht hno hw
  | full t r hout => exact unchanged_full hm hf hs hheap hout hw

end Calls

/-! ### A crowded volume -/

/-- The small volume with another table. -/
def crowded (t : Mem) (h : Heap) : Fat16 := { sample h with fatTable := t }

theorem mounted_crowded (t : Mem) (h : Heap) : Mounted (crowded t h) :=
  ⟨rfl, rfl, (mounted_sample h).sectorSize, (mounted_sample h).fatSize, (mounted_sample h).numFats,
    (mounted_sample h).entries⟩

theorem filesSound_crowded (h : Heap) (ht : fatAt t 3 = 0xFFFF) : FilesSound (crowded t h) := by
  refine ⟨fun _ => [3], fun i hi => ?_, fun i j hi hj hij => ?_⟩
  · rw [lists_sample h hi]
    refine (chain_sample h).congr (fun x hx => ?_)
    rw [mem_singleton.mp hx]
    exact ht.trans fatAt_sample.symm
  · exact absurd ((lists_sample h hi).trans (lists_sample h hj).symm) hij

/-- A table without a free entry. -/
def fullTable : Mem := fun _ => 0xFF

/-- On a volume without a free cluster the creation of a file fails, and
    nothing has changed. -/
theorem failed_write_new_file :
    ∃ h v', (crowded fullTable h).writeFile samplePhys (fun _ _ => .ok) [0x41] (fun _ => 7) 3 =
        some (v', -1) ∧ Unchanged (crowded fullTable h) v' [0x41] := by
  have hnone : freeBelow fullTable (u16 256) = ∅ := by decide
  have hscan : fatScan fullTable (u16 256 - 2) 2 = 0 := by decide +kernel
  rcases outOfClusters_run (crowded fullTable) (show 0 < 3 by decide) (fun _ => rfl)
    (fun _ => find_sample.2.1) (fun _ => find_sample.2.2) (fun _ => hscan) (by decide +kernel) with
    ⟨h, v', hi, hw, hout⟩
  refine ⟨h, v', hw, (failed_write_iff (mounted_crowded _ h)
    (filesSound_crowded h (by decide)) (Heap.reachable_init hi) rfl
    (Failure.full _ _ hout) hw).mpr (Or.inr ⟨[], Or.inl ⟨find_sample.2.1, rfl⟩, Or.inr
      ⟨hout.2.2.1, hnone, ⟨List.Pairwise.nil, ?_, ?_⟩, fun i hi => ?_⟩⟩)⟩
  · exact forall_mem_nil _
  · exact fun x hx => nomatch hx
  · exact nomatch find_sample.2.1.symm.trans hi

/-- A table in which only cluster 2 is free. -/
def crowdedTable : Mem := setFat fullTable 2 0

/-- The clusters run out while the file `B` is overwritten with 2000 bytes:
    the call returns `-1`, cluster 2 is in use and the three bytes of the file
    are other ones. -/
theorem failed_overwrite :
    ((Heap.init samplePhys (fun _ => 0)).bind (fun h =>
      ((crowded crowdedTable h).readFile samplePhys [0x42] (fun _ => 9) 3).bind (fun before =>
        ((crowded crowdedTable h).writeFile samplePhys (fun _ _ => .ok) [0x42] (fun _ => 7)
            2000).bind (fun w =>
          (w.1.readFile samplePhys [0x42] (fun _ => 9) 3).map (fun behind =>
            (w.2, (fatAt crowdedTable 2, fatAt w.1.fatTable 2), bytes before.2.1 0 3,
              bytes behind.2.1 0 3)))))) =
      some (-1, (0, 3), [0, 0, 0], [7, 7, 7]) := by
  decide +kernel

end SysRust.Fat16
