import SysRust.Core.Fat16

/-!
# Sectors and Directory Entries

What the driver's writes do to the disk. The volume is laid out in three
areas, one behind the other: the copies of the FAT, the root directory and
the clusters. Each kind of write stays inside of its own area whether it
succeeds or not, which is what the `_below`, `_other` and `_outside` lemmas
say, and a write that reports success has put the data where it belongs.

Directory entries share sectors, so rewriting one goes through the bytes of
its neighbours. `DirUpdate` states the result as an update of the directory
at one index, and the lemmas about `Listed` say which files a lookup sees
afterwards. Creating a file in the slot that ended the directory may reveal
slots behind it, which is the one way a file can appear on its own.

## Main definitions

* `Listed`: The entry is one that lookups consider.
* `DirUpdate`: Two directories that differ in one entry.

## Theorems

* `writeSectors_ok`, `writeSectors_outside`: A run of sector writes.
* `readSectors_at`: A run of sector reads.
* `writeCluster_ok`, `writeCluster_other`, `writeCluster_below`: One cluster.
* `fatFlush_ok`, `fatFlush_outside`: The copies of the FAT.
* `writeRootEntry_cases`: The directory after an entry was written.
* `findRootEntry_some`, `findRootEntry_none`, `findFreeRootEntry_some`: What
  lookups find.
* `listed_rewrite`, `listed_create`, `listed_of_create`: The listed entries
  after an update.
-/

namespace SysRust.Fat16

open List

/-! ### Single sectors -/

variable {l lba i j n c x k count : Nat} {ata : Nat → Nat → WriteOutcome} {buf e e' : Mem}
  {d : Disk} {b : Bpb} {fatName name : List UInt8} {dir dir' : Nat → Mem}

theorem writeSector_other (ata : Nat → Nat → WriteOutcome) (buf : Mem) (d : Disk) (h : l ≠ lba) :
    (writeSector ata lba buf d).1.sector l = d.sector l := by
  unfold writeSector
  cases ata d.writes lba <;> simp only [Disk.put, if_neg h]

theorem writeSector_ok (h : (writeSector ata lba buf d).2 = true) :
    (writeSector ata lba buf d).1.sector lba = buf := by
  unfold writeSector at h ⊢
  cases hata : ata d.writes lba <;> rw [hata] at h
  · simp only [Disk.put, if_true]
  · exact absurd h Bool.false_ne_true
  · exact absurd h Bool.false_ne_true

theorem writeSector_true (buf : Mem) (d : Disk) (h : ∀ k, ata k lba = .ok) :
    (writeSector ata lba buf d).2 = true := by
  rw [writeSector, h]

/-! ### Runs of sectors -/

theorem writeSectors_outside (ata : Nat → Nat → WriteOutcome) (lba : Nat) (buf : Mem) (n i : Nat)
    (d : Disk) (h : l < lba + i ∨ lba + i + n ≤ l) :
    (writeSectors ata lba buf n i d).1.sector l = d.sector l := by
  fun_induction writeSectors ata lba buf n i d with
  | case1 => rfl
  | case2 n i d => exact writeSector_other _ _ _ (by omega)
  | case3 n i d _ ih => exact (ih (by omega)).trans (writeSector_other _ _ _ (by omega))

/-- A run of writes that reports success has written every sector. -/
theorem writeSectors_ok (h : (writeSectors ata lba buf n i d).2 = true) (hlo : i ≤ j)
    (hhi : j < i + n) :
    (writeSectors ata lba buf n i d).1.sector (lba + j) = window buf (512 * j) := by
  fun_induction writeSectors ata lba buf n i d with
  | case1 => omega
  | case2 => exact absurd h Bool.false_ne_true
  | case3 n i d hw ih =>
    by_cases hj : j = i
    · rw [writeSectors_outside _ _ _ _ _ _ (by omega), hj]
      exact writeSector_ok (Bool.eq_true_of_not_eq_false hw)
    · exact ih h (by omega) (by omega)

theorem writeSectors_true (h : ∀ k l, lba ≤ l → ata k l = .ok) :
    (writeSectors ata lba buf n i d).2 = true := by
  induction n generalizing i d with
  | zero => rfl
  | succ n ih =>
    have hw : (writeSector ata (lba + i) (window buf (512 * i)) d).2 = true :=
      writeSector_true _ _ (fun k => h k (lba + i) (by omega))
    rw [writeSectors, if_neg (by rw [hw]; exact Bool.noConfusion)]
    exact ih

theorem readSectors_before (d : Disk) (lba n i : Nat) (buf : Mem) {b : Nat} (h : b < 512 * i) :
    readSectors d lba n i buf b = buf b := by
  induction n generalizing i buf with
  | zero => rfl
  | succ n ih =>
    rw [readSectors, ih (i + 1) _ (by omega), copy_outside (Or.inl h)]

theorem readSectors_at (d : Disk) (lba n i : Nat) (buf : Mem) {b : Nat} (hlo : 512 * i ≤ b)
    (hhi : b < 512 * (i + n)) :
    readSectors d lba n i buf b = d.sector (lba + b / 512) (b % 512) := by
  induction n generalizing i buf with
  | zero => omega
  | succ n ih =>
    rw [readSectors]
    by_cases hb : b < 512 * (i + 1)
    · -- This round reads the byte, and the later ones leave it alone.
      rw [readSectors_before _ _ _ _ _ hb, copy_inside ⟨hlo, by omega⟩,
        show b / 512 = i by omega, show b % 512 = b - 512 * i by omega]
    · exact ih (i + 1) _ (by omega) (by omega)

/-! ### Clusters -/

theorem clusterLba_ge (b : Bpb) (c : Nat) : b.firstDataSector ≤ b.clusterLba c :=
  Nat.le_add_right _ _

/-- Clusters lie one behind the other. -/
theorem clusterLba_apart (b : Bpb) (hc : 2 ≤ c) (h : c < x) :
    b.clusterLba c + b.sectorsPerCluster ≤ b.clusterLba x := by
  have hmul : (c - 2 + 1) * b.sectorsPerCluster ≤ (x - 2) * b.sectorsPerCluster :=
    Nat.mul_le_mul_right _ (by omega)
  rw [Nat.add_mul, Nat.one_mul] at hmul
  simp only [Bpb.clusterLba]
  omega

theorem writeCluster_below (ata : Nat → Nat → WriteOutcome) (b : Bpb) (c : Nat) (buf : Mem)
    (d : Disk) (h : l < b.firstDataSector) :
    (writeCluster ata b c buf d).1.sector l = d.sector l := by
  rw [writeCluster]
  by_cases hc : c < 2
  · rw [if_pos hc]
  · have hge := clusterLba_ge b c
    rw [if_neg hc, writeSectors_outside _ _ _ _ _ _ (by omega)]

theorem writeCluster_other (ata : Nat → Nat → WriteOutcome) (b : Bpb) (buf : Mem) (d : Disk)
    (hx : 2 ≤ x) (h : x ≠ c) (hj : j < b.sectorsPerCluster) :
    (writeCluster ata b c buf d).1.sector (b.clusterLba x + j) =
      d.sector (b.clusterLba x + j) := by
  rw [writeCluster]
  by_cases hc : c < 2
  · rw [if_pos hc]
  · rw [if_neg hc]
    refine writeSectors_outside _ _ _ _ _ _ ?_
    rcases Nat.lt_or_gt_of_ne h with hlt | hlt
    · have hap := clusterLba_apart b hx hlt
      omega
    · have hap := clusterLba_apart b (Nat.not_lt.mp hc) hlt
      omega

theorem writeCluster_ok (h : (writeCluster ata b c buf d).2 = true) (hj : j < b.sectorsPerCluster) :
    (writeCluster ata b c buf d).1.sector (b.clusterLba c + j) = window buf (512 * j) := by
  rw [writeCluster] at h ⊢
  by_cases hc : c < 2
  · rw [if_pos hc] at h
    exact absurd h Bool.false_ne_true
  · rw [if_neg hc] at h ⊢
    exact writeSectors_ok h (by omega) (by omega)

theorem writeCluster_true (hc : 2 ≤ c) (h : ∀ k l, b.firstDataSector ≤ l → ata k l = .ok) :
    (writeCluster ata b c buf d).2 = true := by
  rw [writeCluster, if_neg (by omega)]
  exact writeSectors_true (fun k l hl => h k l (Nat.le_trans (clusterLba_ge b c) hl))

/-! ### The copies of the FAT -/

theorem flushCopies_outside (ata : Nat → Nat → WriteOutcome) (b : Bpb) (t : Mem) (n f : Nat)
    (d : Disk) (h : l < b.firstFatSector + f * b.fatSize16 ∨
      b.firstFatSector + (f + n) * b.fatSize16 ≤ l) :
    (flushCopies ata b t n f d).1.sector l = d.sector l := by
  induction n generalizing f d with
  | zero => rfl
  | succ n ih =>
    have hnext : (f + 1) * b.fatSize16 = f * b.fatSize16 + b.fatSize16 := by
      rw [Nat.add_mul, Nat.one_mul]
    have hle : (f + 1) * b.fatSize16 ≤ (f + (n + 1)) * b.fatSize16 :=
      Nat.mul_le_mul_right _ (by omega)
    have hhead := writeSectors_outside ata (b.firstFatSector + f * b.fatSize16) t b.fatSize16 0 d
      (l := l) (by omega)
    rw [flushCopies]
    by_cases hw : (writeSectors ata (b.firstFatSector + f * b.fatSize16) t b.fatSize16 0 d).2
        = false
    · rw [if_pos hw]; exact hhead
    · rw [if_neg hw, ih (f + 1) _ (by rw [show f + 1 + n = f + (n + 1) by omega]; omega), hhead]

/-- Flushing stays in front of the root directory. -/
theorem fatFlush_outside (ata : Nat → Nat → WriteOutcome) (b : Bpb) (t : Mem) (d : Disk)
    (h : l < b.firstFatSector ∨ b.firstRootSector ≤ l) :
    (fatFlush ata b t d).1.sector l = d.sector l := by
  refine flushCopies_outside ata b t b.numFats 0 d ?_
  rw [Nat.zero_mul, Nat.zero_add]
  exact h

/-- After a flush the first copy of the FAT holds the table. -/
theorem fatFlush_ok {t : Mem} (h : (fatFlush ata b t d).2 = true) (hn : b.numFats ≠ 0) {s : Nat}
    (hs : s < b.fatSize16) :
    (fatFlush ata b t d).1.sector (b.firstFatSector + s) = window t (512 * s) := by
  rcases Nat.exists_eq_succ_of_ne_zero hn with ⟨n, hn⟩
  unfold fatFlush at h ⊢
  rw [hn, Nat.succ_eq_add_one, flushCopies] at h ⊢
  simp only [Nat.zero_mul, Nat.add_zero, Nat.zero_add] at h ⊢
  by_cases hw : (writeSectors ata b.firstFatSector t b.fatSize16 0 d).2 = false
  · rw [if_pos hw] at h
    exact absurd h Bool.false_ne_true
  · rw [if_neg hw, flushCopies_outside _ _ _ _ _ _ (by omega)]
    exact writeSectors_ok (Bool.eq_true_of_not_eq_false hw) (by omega) (by omega)

/-! ### Directory entries -/

theorem rootSector_lt (b : Bpb) (h : i < b.rootEntryCount) :
    b.firstRootSector + i / 16 < b.firstDataSector := by
  simp only [Bpb.firstDataSector, Bpb.rootDirSectors]
  omega

theorem nameOf_congr (h : AgreeOn e e' 0 11) : nameOf e = nameOf e' :=
  map_congr_left (fun i hi => h i (Nat.zero_le _) (mem_range.mp hi))

theorem nameOf_head (h : nameOf e = fatName) : fatName.head? = some (e 0) := by
  rw [← h]
  rfl

/-- The new entry carries the name. -/
theorem nameOf_newEntry (h : fatName.length = 11) : nameOf (newEntry fatName) = fatName := by
  refine ext_getElem (by rw [nameOf, length_map, length_range, h]) ?_
  intro i h1 h2
  simp only [nameOf, getElem_map, getElem_range, newEntry]
  rw [fill_outside (by omega), copy_inside (by omega), Nat.sub_zero,
    getD_eq_getElem?_getD, List.getElem?_eq_getElem h2, Option.getD_some]

theorem attrOf_newEntry (fatName : List UInt8) : attrOf (newEntry fatName) = 0x20 := by
  rw [attrOf, newEntry, fill_inside (by omega)]

/-- The entry that `write_file` writes back. -/
def filled (entry : Mem) (c size : Nat) : Mem := setFileSize (setFirstCluster entry c) size

/-- Filling in the cluster and the size keeps the bytes in front of them. -/
theorem filled_header (entry : Mem) (c size : Nat) : AgreeOn (filled entry c size) entry 0 26 := by
  intro b _ hb
  rw [filled, setFileSize, setFirstCluster, store_outside (by omega),
    store_outside (by omega)]

theorem firstClusterOf_filled (entry : Mem) (size : Nat) (h : c < 2 ^ 16) :
    firstClusterOf (filled entry c size) = c := by
  rw [firstClusterOf, filled, setFileSize, load_store_disjoint (by omega),
    setFirstCluster, load_store_self]
  exact Nat.mod_eq_of_lt h

theorem fileSizeOf_filled (entry : Mem) (c : Nat) {size : Nat} (h : size < 2 ^ 32) :
    fileSizeOf (filled entry c size) = size := by
  rw [fileSizeOf, filled, setFileSize, load_store_self]
  exact Nat.mod_eq_of_lt h

/-- The entry at `i` has been replaced by `e`, the other ones of the directory
    are as they were. -/
def DirUpdate (count : Nat) (dir dir' : Nat → Mem) (i : Nat) (e : Mem) : Prop :=
  AgreeOn (dir' i) e 0 32 ∧ ∀ j, j < count → j ≠ i → AgreeOn (dir' j) (dir j) 0 32

/-- Whether or not the write reports success, the directory is the old one or
    has the entry replaced; with success it is the latter. Sectors beyond the
    one of the entry are untouched. -/
theorem writeRootEntry_cases (ata : Nat → Nat → WriteOutcome) (b : Bpb) (i : Nat) (e : Mem)
    (d : Disk) :
    ((writeRootEntry ata b i e d).2 = false ∧
        readRootEntry b (writeRootEntry ata b i e d).1 = readRootEntry b d) ∨
      DirUpdate b.rootEntryCount (readRootEntry b d)
        (readRootEntry b (writeRootEntry ata b i e d).1) i e := by
  -- The sector after the write holds the new entry between its neighbours.
  have hput : DirUpdate b.rootEntryCount (readRootEntry b d)
      (readRootEntry b (d.put (b.firstRootSector + i / 16)
        (copy (d.sector (b.firstRootSector + i / 16)) (i % 16 * 32) e 32))) i e := by
    refine ⟨fun x _ hx => ?_, fun j _ hj x _ hx => ?_⟩
    · simp only [readRootEntry, window, Disk.put, if_true]
      rw [copy_inside (by omega), Nat.add_sub_cancel_left]
    · simp only [readRootEntry, window, Disk.put]
      by_cases hs : b.firstRootSector + j / 16 = b.firstRootSector + i / 16
      · rw [if_pos hs, copy_outside (by omega), hs]
      · rw [if_neg hs]
  unfold writeRootEntry writeSector
  cases ata d.writes (b.firstRootSector + i / 16) with
  | ok => exact Or.inr hput
  | failed => exact Or.inl ⟨rfl, rfl⟩
  | unflushed => exact Or.inr hput

/-! ### Looking files up -/

/-- The entry at `i` is one that lookups consider: in front of the end of the
    directory, not deleted, and neither a long name nor a label. -/
def Listed (count : Nat) (dir : Nat → Mem) (i : Nat) : Prop :=
  i < count ∧ (∀ j, j ≤ i → dir j 0 ≠ 0x00) ∧ dir i 0 ≠ 0xE5 ∧ ¬ IsSkipped (dir i)

instance (count : Nat) (dir : Nat → Mem) : DecidablePred (Listed count dir) := fun i =>
  inferInstanceAs (Decidable (i < count ∧ (∀ j, j ≤ i → dir j 0 ≠ 0x00) ∧ dir i 0 ≠ 0xE5 ∧
    ¬ IsSkipped (dir i)))

/-- The search, from `i` on: it takes the first entry that is listed under the
    name. -/
theorem findEntry_eq (n i : Nat) (hn : i + n = b.rootEntryCount)
    (hpre : ∀ j, j < i → readRootEntry b d j 0 ≠ 0x00) :
    findEntry b d fatName n i = (List.range' i n).find? (fun k =>
      decide (Listed b.rootEntryCount (readRootEntry b d) k ∧
        nameOf (readRootEntry b d k) = fatName)) := by
  induction n generalizing i with
  | zero => rfl
  | succ n ih =>
    rw [findEntry]
    by_cases hend : readRootEntry b d i 0 = 0x00
    · rw [if_pos hend, eq_comm, List.find?_eq_none]
      intro k hk hl
      exact (of_decide_eq_true hl).1.2.1 i (mem_range'_1.mp hk).1 hend
    have hpre' : ∀ j, j < i + 1 → readRootEntry b d j 0 ≠ 0x00 :=
      Nat.forall_lt_succ_right.mpr ⟨hpre, hend⟩
    have hlisted : Listed b.rootEntryCount (readRootEntry b d) i ↔
        readRootEntry b d i 0 ≠ 0xE5 ∧ ¬ IsSkipped (readRootEntry b d i) :=
      ⟨fun h => h.2.2, fun h => ⟨by omega, fun j hj => hpre' j (by omega), h⟩⟩
    rw [if_neg hend, ih (i + 1) (by omega) hpre', List.range'_succ, List.find?_cons]
    by_cases hdel : readRootEntry b d i 0 = 0xE5
    · simp [hlisted, hdel]
    by_cases hskip : IsSkipped (readRootEntry b d i)
    · simp [hlisted, hdel, hskip]
    by_cases hname : nameOf (readRootEntry b d i) = fatName
    · simp [hlisted, hdel, hskip, hname]
    · simp [hlisted, hdel, hskip, hname]

theorem findRootEntry_eq (b : Bpb) (d : Disk) (fatName : List UInt8) :
    findRootEntry b d fatName = (List.range b.rootEntryCount).find? (fun k =>
      decide (Listed b.rootEntryCount (readRootEntry b d) k ∧
        nameOf (readRootEntry b d k) = fatName)) := by
  rw [range_eq_range']
  exact findEntry_eq _ 0 (Nat.zero_add _) (fun j hj => absurd hj (Nat.not_lt_zero j))

/-- A lookup finds the first listed entry with the name. -/
theorem findRootEntry_some {b : Bpb} {d : Disk} {fatName : List UInt8} {k : Nat} :
    findRootEntry b d fatName = some k ↔
      Listed b.rootEntryCount (readRootEntry b d) k ∧ nameOf (readRootEntry b d k) = fatName ∧
        ∀ j, j < k → Listed b.rootEntryCount (readRootEntry b d) j →
          nameOf (readRootEntry b d j) ≠ fatName := by
  rw [findRootEntry_eq, List.find?_range_eq_some]
  simp only [decide_eq_true_eq, mem_range, Bool.not_eq_true', decide_eq_false_iff_not,
    not_and, and_assoc]
  exact ⟨fun h => ⟨h.1, h.2.1, h.2.2.2⟩, fun h => ⟨h.1, h.2.1, h.1.1, h.2.2⟩⟩

theorem findRootEntry_none (h : findRootEntry b d fatName = none) :
    ∀ j, Listed b.rootEntryCount (readRootEntry b d) j →
      nameOf (readRootEntry b d j) ≠ fatName := by
  rw [findRootEntry_eq, List.find?_range_eq_none] at h
  intro j hl hname
  simpa [hl, hname] using h j hl.1

theorem findFreeEntry_eq (b : Bpb) (d : Disk) (n i : Nat) :
    findFreeEntry b d n i = (List.range' i n).find? (fun k =>
      decide (readRootEntry b d k 0 = 0x00 ∨ readRootEntry b d k 0 = 0xE5)) := by
  induction n generalizing i with
  | zero => rfl
  | succ n ih =>
    rw [findFreeEntry, List.range'_succ, List.find?_cons, ih]
    by_cases hfree : readRootEntry b d i 0 = 0x00 ∨ readRootEntry b d i 0 = 0xE5
    · rw [if_pos hfree, decide_eq_true hfree]
    · rw [if_neg hfree, decide_eq_false hfree]

/-- The slot for a new file is the first one that is free. -/
theorem findFreeRootEntry_some (h : findFreeRootEntry b d = some k) :
    k < b.rootEntryCount ∧ (readRootEntry b d k 0 = 0x00 ∨ readRootEntry b d k 0 = 0xE5) ∧
      ∀ j, j < k → readRootEntry b d j 0 ≠ 0x00 := by
  rw [findFreeRootEntry, findFreeEntry_eq, ← range_eq_range',
    List.find?_range_eq_some] at h
  rcases h with ⟨hfree, hlt, hfirst⟩
  refine ⟨mem_range.mp hlt, of_decide_eq_true hfree, fun j hj hend => ?_⟩
  simpa [hend] using hfirst j hj

/-! ### Listed entries after an update -/

theorem IsSkipped.congr (h : e 11 = e' 11) : IsSkipped e ↔ IsSkipped e' := by
  simp only [IsSkipped, attrOf, h]

/-- Being listed depends on the first byte of each entry of the directory and
    on the attributes. -/
theorem listed_congr (h0 : ∀ j, j < count → j ≤ i → dir' j 0 = dir j 0)
    (ha : i < count → dir' i 11 = dir i 11) (hl : Listed count dir i) : Listed count dir' i := by
  have hi := hl.1
  refine ⟨hi, fun j hj => ?_, ?_, ?_⟩
  · rw [h0 j (by omega) hj]; exact hl.2.1 j hj
  · rw [h0 i hi (Nat.le_refl _)]; exact hl.2.2.1
  · rw [IsSkipped.congr (ha hi)]; exact hl.2.2.2

/-- Rewriting an entry under its old header changes neither what is listed
    nor the names. -/
theorem listed_rewrite (hu : DirUpdate count dir dir' i e) (he : AgreeOn e (dir i) 0 26) :
    (∀ j, Listed count dir' j ↔ Listed count dir j) ∧
      ∀ j, j < count → nameOf (dir' j) = nameOf (dir j) := by
  have hhead : ∀ j, j < count → AgreeOn (dir' j) (dir j) 0 26 := by
    intro j hc x h1 h2
    by_cases hj : j = i
    · rw [hj, hu.1 x h1 (by omega), he x h1 h2]
    · exact hu.2 j hc hj x h1 (by omega)
  refine ⟨fun j => ⟨fun hl => ?_, fun hl => ?_⟩, fun j hc => nameOf_congr ?_⟩
  · exact listed_congr (fun k hk _ => (hhead k hk 0 (by omega) (by omega)).symm)
      (fun hk => (hhead j hk 11 (by omega) (by omega)).symm) hl
  · exact listed_congr (fun k hk _ => hhead k hk 0 (by omega) (by omega))
      (fun hk => hhead j hk 11 (by omega) (by omega)) hl
  · exact fun x h1 h2 => hhead j hc x h1 (by omega)

/-- What was listed stays listed when a free slot is filled. -/
theorem listed_create (hu : DirUpdate count dir dir' i e) (hfree : dir i 0 = 0x00 ∨ dir i 0 = 0xE5)
    (he : e 0 ≠ 0x00) (hl : Listed count dir j) : j ≠ i ∧ Listed count dir' j := by
  have hji : j ≠ i := by
    rintro rfl
    rcases hfree with h | h
    · exact hl.2.1 j (Nat.le_refl _) h
    · exact hl.2.2.1 h
  have hjc := hl.1
  have hsame := hu.2 j hjc hji
  refine ⟨hji, hjc, fun k hk => ?_, ?_, ?_⟩
  · by_cases hki : k = i
    · rw [hki, hu.1 0 (by omega) (by omega)]; exact he
    · rw [hu.2 k (by omega) hki 0 (by omega) (by omega)]; exact hl.2.1 k hk
  · rw [hsame 0 (by omega) (by omega)]; exact hl.2.2.1
  · rw [IsSkipped.congr (hsame 11 (by omega) (by omega))]; exact hl.2.2.2

/-- The filled slot itself is listed, unless its name starts like a deleted
    entry. -/
theorem listed_created (hu : DirUpdate count dir dir' i e) (hi : i < count)
    (hpre : ∀ j, j < i → dir j 0 ≠ 0x00) (he : e 0 ≠ 0x00) (hdel : e 0 ≠ 0xE5)
    (hattr : e 11 = 0x20) : Listed count dir' i := by
  have h0 := hu.1 0 (by omega) (by omega)
  have h11 := hu.1 11 (by omega) (by omega)
  refine ⟨hi, fun j hj => ?_, by rw [h0]; exact hdel, ?_⟩
  · by_cases hji : j = i
    · rw [hji, h0]; exact he
    · rw [hu.2 j (by omega) hji 0 (by omega) (by omega)]; exact hpre j (by omega)
  · rw [IsSkipped, attrOf, h11, hattr]
    decide

/-- Nothing but the filled slot becomes listed, if it was a deleted one or if
    the directory ends right behind it. -/
theorem listed_of_create (hu : DirUpdate count dir dir' i e)
    (hnext : dir i 0 = 0xE5 ∨ count ≤ i + 1 ∨ dir (i + 1) 0 = 0x00) (hl : Listed count dir' j)
    (hji : j ≠ i) : Listed count dir j := by
  have hjc := hl.1
  have hother : ∀ k, k ≤ j → k ≠ i → dir k 0 ≠ 0x00 := by
    intro k hk hki
    rw [← hu.2 k (by omega) hki 0 (by omega) (by omega)]
    exact hl.2.1 k hk
  have hsame := hu.2 j hjc hji
  refine ⟨hjc, fun k hk => ?_, ?_, ?_⟩
  · by_cases hki : k = i
    · rcases hnext with h | h | h
      · rw [hki, h]; decide
      · omega
      · -- The old end would still be in the way, one slot further.
        exact absurd h (hother (i + 1) (by omega) (by omega))
    · exact hother k hk hki
  · rw [← hsame 0 (by omega) (by omega)]; exact hl.2.2.1
  · rw [← IsSkipped.congr (hsame 11 (by omega) (by omega))]; exact hl.2.2.2

/-! ### Names -/

theorem padTo_length {l : List UInt8} (h : l.length ≤ n) : (padTo n l).length = n := by
  rw [padTo, length_append, length_replicate]
  omega

theorem nameTo83_length (name : List UInt8) : (nameTo83 name).length = 11 := by
  rw [nameTo83, length_append, padTo_length, padTo_length]
  · rw [length_map, length_take]; omega
  · rw [length_map, length_take]; omega

/-- The first byte of an 8.3 name is a space or the first byte of the name in
    upper case. -/
theorem nameTo83_head (name : List UInt8) :
    (nameTo83 name).head? = some SPACE ∨
      ∃ c ∈ name, (nameTo83 name).head? = some (toUpper c) := by
  cases name with
  | nil => exact Or.inl rfl
  | cons c cs =>
    by_cases hdot : (c != DOT) = true
    · refine Or.inr ⟨c, mem_cons_self, ?_⟩
      rw [nameTo83, takeWhile_cons, if_pos hdot]
      rfl
    · refine Or.inl ?_
      rw [nameTo83, takeWhile_cons, if_neg hdot]
      rfl

theorem toUpper_ne_zero {c : UInt8} (h : c ≠ 0) : toUpper c ≠ 0 := by
  have hall : ∀ n : Fin 256, UInt8.ofNat n ≠ 0 → toUpper (UInt8.ofNat n) ≠ 0 := by decide +kernel
  have hc := hall ⟨c.toNat, c.toNat_lt⟩
  rw [UInt8.ofNat_toNat] at hc
  exact hc h

theorem toUpper_ascii {c : UInt8} (h : c < 128) : toUpper c < 128 := by
  have hall : ∀ n : Fin 256, UInt8.ofNat n < 128 → toUpper (UInt8.ofNat n) < 128 := by
    decide +kernel
  have hc := hall ⟨c.toNat, c.toNat_lt⟩
  rw [UInt8.ofNat_toNat] at hc
  exact hc h

/-- The first byte is a blank or one of the name. -/
theorem nameTo83_first {P : UInt8 → Prop} (hblank : P 0x20) (h : ∀ c ∈ name, P (toUpper c))
    {x : UInt8} (hx : (nameTo83 name).head? = some x) : P x := by
  rcases nameTo83_head name with hs | ⟨c, hc, hs⟩
  · rw [hs, Option.some.injEq] at hx
    exact hx ▸ hblank
  · rw [hs, Option.some.injEq] at hx
    exact hx ▸ h c hc

/-- It is no end mark. -/
theorem nameTo83_ne_end (h : ∀ c ∈ name, c ≠ 0) {x : UInt8} (hx : (nameTo83 name).head? = some x) :
    x ≠ 0x00 :=
  nameTo83_first (P := (· ≠ 0x00)) (by decide) (fun c hc => toUpper_ne_zero (h c hc)) hx

/-- For an ASCII name it is no deletion mark either. -/
theorem nameTo83_ne_deleted (h : ∀ c ∈ name, c < 128) {x : UInt8}
    (hx : (nameTo83 name).head? = some x) : x ≠ 0xE5 := by
  rintro rfl
  have hlt := nameTo83_first (P := (· < 128)) (by decide) (fun c hc => toUpper_ascii (h c hc)) hx
  exact absurd hlt (by decide)

end SysRust.Fat16
