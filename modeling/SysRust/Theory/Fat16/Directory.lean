import SysRust.Theory.Fat16.Listing

/-!
# Listing and Looking Up

Five loops walk the root directory, and each has its own copy of the tests
for the end of the directory, for deleted entries and for attributes. The
three enumerating ones agree: what `list_files` hands to its callback is what
`get_file_count` counts and `get_file_name` numbers. The lookup leaves out
one of the tests and finds directories as well, so it agrees with them
exactly if the first entry of that name is no directory.

A write that succeeds rewrites one entry. If that was there before, the
listing shows it with its new size. If it fills a slot, the slot may have
been the end of the directory, and then the entries behind it, whatever they
hold, are in front of the end from now on.

## Main definitions

* `Enumerated`: All enumerating loops come past the entry.
* `FirstNamed`: The first entry with a name that lookups consider.
* `slotFor`: The entry that a write goes to.
* `ListedWith`: The listing has changed by one file.
* `Tidy`: The condition under which a write changes the listing by one file.

## Theorems

* `mem_listedEntries`: What `list_files` enumerates.
* `enumerated_iff`: The enumerating loops agree.
* `lookup_enumerated_iff`: When lookup and enumeration agree.
* `writeFile_updates`: The directory after a write that succeeds.
* `listing_changes_iff`: When a write changes the listing by one file.
-/

namespace SysRust.Fat16

/-! ### The loop of `list_files` -/

variable {b : Bpb} {k : Nat} {v v' : Fat16} {i size : Nat} {ata : Nat → Nat → WriteOutcome}
  {phys : Nat → Nat}

/-- `list_files` enumerates the regular files. -/
theorem mem_listedEntries (hr : v.ready = true) :
    k ∈ v.listedEntries ↔ Regular v.bpb.rootEntryCount (readRootEntry v.bpb v.disk) k := by
  rw [listedEntries, if_neg (by rw [hr]; exact Bool.noConfusion), listLoop_eq, List.mem_filter,
    List.mem_range, decide_eq_true_eq]
  exact ⟨fun h => h.2, fun h => ⟨h.1, h⟩⟩

/-! ### Lookup against enumeration -/

/-- `list_files` hands out the entry, and it has one of the numbers below the
    count. -/
def Enumerated (v : Fat16) (i : Nat) : Prop :=
  i ∈ v.listedEntries ∧ ∃ index, index < v.getFileCount ∧ fileEntry v.bpb v.disk index = some i

/-- The enumerating loops agree on what a regular file is. -/
theorem enumerated_iff (hr : v.ready = true) (i : Nat) :
    v.Enumerated i ↔ Regular v.bpb.rootEntryCount (readRootEntry v.bpb v.disk) i := by
  rw [Enumerated, mem_listedEntries hr]
  refine ⟨fun h => h.1, fun h => ⟨h, _, ?_, fileEntry_some.mpr ⟨h, rfl⟩⟩⟩
  rw [getFileCount_eq hr]
  exact Nat.count_strict_mono h h.1

/-- The first of the entries with this name that are in front of the end and
    neither deleted nor a long name or a label. -/
def FirstNamed (v : Fat16) (fatName : List UInt8) (i : Nat) : Prop :=
  v.Lists i ∧ nameOf (readRootEntry v.bpb v.disk i) = fatName ∧
    ∀ j, j < i → v.Lists j → nameOf (readRootEntry v.bpb v.disk j) ≠ fatName

/-- A listed entry is a regular file exactly if it is no directory. -/
theorem regular_iff_of_listed {count : Nat} {dir : Nat → Mem} (h : Listed count dir i) :
    Regular count dir i ↔ attrOf (dir i) &&& 0x10 = 0 := by
  refine ⟨fun hr => ?_, fun hattr => ⟨h.1, h.2.1, ?_⟩⟩
  · by_contra hdir
    exact hr.2.2 (Or.inr (Or.inr hdir))
  · rintro (hdel | hskip | hdir)
    · exact h.2.2.1 hdel
    · exact h.2.2.2 hskip
    · exact hdir hattr

/-- The entry that `read_file` and `write_file` select under a name is one that
    is enumerated, exactly if the first entry of that name is no directory. -/
theorem lookup_enumerated_iff {v : Fat16} (hr : v.ready = true) (name : List UInt8) :
    (∀ i, findRootEntry v.bpb v.disk (nameTo83 name) = some i → v.Enumerated i) ↔
      ∀ i, v.FirstNamed (nameTo83 name) i →
        attrOf (readRootEntry v.bpb v.disk i) &&& 0x10 = 0 := by
  refine forall_congr' (fun i => ?_)
  rw [findRootEntry_some, enumerated_iff hr]
  exact ⟨fun h hf => (regular_iff_of_listed hf.1).mp (h hf),
    fun h hf => (regular_iff_of_listed hf.1).mpr (h hf)⟩

/-- The file of the small volume is found and enumerated. -/
theorem lookup_enumerated_sample : ∃ h, (sample h).Enumerated 0 := by
  let h : Heap := { mem := fun _ => 0, head := 0, pages := 0 }
  refine ⟨h, ?_⟩
  have hfind : findRootEntry (sample h).bpb (sample h).disk (nameTo83 [0x42]) = some 0 :=
    (by decide :
      findRootEntry (Bpb.parse sampleBoot) sampleDisk (nameTo83 [0x42]) = some 0)
  refine (lookup_enumerated_iff (show (sample h).ready = true from rfl) [0x42]).mpr ?_ 0 hfind
  intro i hi
  have hi0 : i = 0 := Option.some.inj ((findRootEntry_some.mpr hi).symm.trans hfind)
  rw [hi0]
  exact (by decide :
    attrOf (readRootEntry (Bpb.parse sampleBoot) sampleDisk 0) &&& 0x10 = 0)

/-- A disk with one directory, `S`, in cluster 3. -/
def subdirDisk : Disk where
  sector := fun l =>
    if l = 0 then sampleBoot
    else if l = 1 then sampleTable
    else if l = 2 then
      copy (fun _ => 0) 0 (filled (fill (newEntry (nameTo83 [0x53])) 11 1 0x10) 3 0) 32
    else fun _ => 0
  writes := 0

/-- Writing a file `S` selects the directory, which is not enumerated, and
    frees its cluster. -/
theorem lookup_subdirectory :
    findRootEntry (Bpb.parse sampleBoot) subdirDisk (nameTo83 [0x53]) = some 0 ∧
      firstClusterOf (readRootEntry (Bpb.parse sampleBoot) subdirDisk 0) = 3 ∧
      ∃ h v', ¬ Enumerated { sample h with disk := subdirDisk } 0 ∧
        writeFile samplePhys (fun _ _ => .ok) [0x53] (fun _ => 7) 3
          { sample h with disk := subdirDisk } = some (v', 0) ∧
        fatAt (sample h).fatTable 3 ≠ 0 ∧ fatAt v'.fatTable 3 = 0 := by
  refine ⟨by decide, by decide, ?_⟩
  have hrun : ((Heap.init samplePhys (fun _ => 0)).bind (fun h =>
      writeFile samplePhys (fun _ _ => .ok) [0x53] (fun _ => 7) 3
        { sample h with disk := subdirDisk })).map
        (fun r => (r.2, fatAt r.1.fatTable 3)) = some (0, 0) := by
    decide
  rcases Option.map_eq_some_iff.mp hrun with ⟨⟨v', r⟩, hw, hr⟩
  rcases Option.bind_eq_some_iff.mp hw with ⟨h, _, hw⟩
  rw [Prod.mk.injEq] at hr
  refine ⟨h, v', ?_, by rw [hw, ← hr.1], ?_, hr.2⟩
  · intro he
    have hreg := (mem_listedEntries (by rfl)).mp he.1
    exact hreg.2.2
      (by decide : IsPassed (readRootEntry (Bpb.parse sampleBoot) subdirDisk 0))
  · exact (by decide : fatAt sampleTable 3 ≠ 0)

/-! ### The directory after a write that succeeds -/

/-- A write that returns `0` has rewritten its entry. -/
theorem writeFile_updates {name : List UInt8} {buf : Mem}
    (h : v.writeFile phys ata name buf size = some (v', 0)) :
    v.ready = true ∧ v'.bpb = v.bpb ∧ v'.ready = v.ready ∧
      ∃ i entry t c, Target v (nameTo83 name) i entry t ∧
        DirUpdate v.bpb.rootEntryCount (readRootEntry v.bpb v.disk)
          (readRootEntry v.bpb v'.disk) i (filled entry c size) := by
  have hready : v.ready = true := by
    by_contra hr
    rw [Bool.not_eq_true] at hr
    rw [writeFile, if_pos hr, Option.some.injEq, Prod.mk.injEq] at h
    exact absurd h.2 (by decide)
  rcases writeFile_cases h with ⟨_, hr⟩ | ⟨i, entry, t, ht, hd⟩
  · exact absurd hr (by decide)
  rcases writeData_effect hd with ⟨p, l, he, hu⟩
  exact ⟨hready, he.bpb, he.ready, i, entry, t, p.firstCluster, ht, hu rfl⟩

/-! ### The listing after a write that succeeds -/

/-- The entry that a write goes to, which is `dir_index` in the source. -/
def slotFor (v : Fat16) (fatName : List UInt8) : Option Nat :=
  (findRootEntry v.bpb v.disk fatName).or (findFreeRootEntry v.bpb v.disk)

theorem Target.slot {fatName : List UInt8} {entry t : Mem} (h : Target v fatName i entry t) :
    v.slotFor fatName = some i := by
  cases h with
  | rewrite hf _ _ => rw [slotFor, hf, Option.some_or]
  | create hf hfree _ _ => rw [slotFor, hf, Option.none_or, hfree]

/-- The files enumerated are those enumerated before and the entry `i`, which
    is shown with the name and the size written. The others are shown as they
    were. -/
structure ListedWith (v v' : Fat16) (name : List UInt8) (size i : Nat) : Prop where
  entries : ∀ k, k ∈ v'.listedEntries ↔ k ∈ v.listedEntries ∨ k = i
  others : ∀ k ∈ v.listedEntries, k ≠ i →
    shownEntry v'.bpb v'.disk k = shownEntry v.bpb v.disk k
  written : shownEntry v'.bpb v'.disk i = (nameFrom83 (nameTo83 name), size)

/-- No regular file comes to light behind the slot `i` when it stops being
    the end of the directory. -/
def NothingBehind (v : Fat16) (i : Nat) : Prop :=
  ∀ k, i < k → k < v.bpb.rootEntryCount →
    (∀ j, i < j → j ≤ k → readRootEntry v.bpb v.disk j 0 ≠ 0x00) →
    IsPassed (readRootEntry v.bpb v.disk k)

/-- The entry of that name is no directory; or there is none, the name does
    not start like a deleted entry, and the slot it goes to is a deleted entry
    or an end with nothing behind it. -/
def Tidy (v : Fat16) (fatName : List UInt8) : Prop :=
  (∀ i, findRootEntry v.bpb v.disk fatName = some i →
      attrOf (readRootEntry v.bpb v.disk i) &&& 0x10 = 0) ∧
    (findRootEntry v.bpb v.disk fatName = none → fatName.head? ≠ some 0xE5 ∧
      ∀ i, findFreeRootEntry v.bpb v.disk = some i →
        readRootEntry v.bpb v.disk i 0 = 0x00 → v.NothingBehind i)

section Changes

variable {count c : Nat} {dir dir' : Nat → Mem} {entry : Mem} {fatName : List UInt8}

/-- A rewritten entry is enumerated as before, and so are the others. -/
theorem regular_rewrite (hu : DirUpdate count dir dir' i (filled (dir i) c size)) (k : Nat)
    (hk : k < count) : Regular count dir' k ↔ Regular count dir k := by
  refine regular_keeps (fun j hj => Or.inl ?_)
  by_cases hji : j = i
  · rw [hji]
    exact agreeOn_mono (dirUpdate_header hu) (Nat.le_refl _) (by omega)
  · exact agreeOn_mono (hu.2 j (by omega) hji) (Nat.le_refl _) (by omega)

/-- Filling a slot adds the entries that were kept out by the end mark in
    it. -/
theorem regular_filled (hlen : fatName.length = 11) (hhead : fatName.head? ≠ some 0x00)
    (hu : DirUpdate count dir dir' i (filled (newEntry fatName) c size)) (hki : k ≠ i) :
    Regular count dir' k ↔ k < count ∧ (∀ j, j ≤ k → j ≠ i → dir j 0 ≠ 0x00) ∧
      ¬ IsPassed (dir k) := by
  have hfirst := created_first hlen hu
  refine and_congr_right (fun hk => and_congr ?_ ?_)
  · refine ⟨fun h j hj hji => ?_, fun h j hj => ?_⟩
    · rw [← hu.2 j (by omega) hji 0 (by omega) (by omega)]
      exact h j hj
    · by_cases hji : j = i
      · rw [hji]
        exact fun h0 => hhead (hfirst.trans (by rw [h0]))
      · rw [hu.2 j (by omega) hji 0 (by omega) (by omega)]
        exact h j hj hji
  · exact not_congr (SameHead.passed
      (Or.inl (agreeOn_mono (hu.2 k hk hki) (Nat.le_refl _) (by omega))))

/-- The other entries are shown as before. -/
theorem shown_other {d d' : Disk}
    (hu : DirUpdate b.rootEntryCount (readRootEntry b d) (readRootEntry b d') i
      (filled entry c size)) (hk : k < b.rootEntryCount) (hki : k ≠ i) :
    shownEntry b d' k = shownEntry b d k := by
  have hagree := hu.2 k hk hki
  rw [shownEntry, shownEntry, nameOf_congr (agreeOn_mono hagree (Nat.le_refl _) (by omega)),
    show fileSizeOf (readRootEntry b d' k) = fileSizeOf (readRootEntry b d k) from
      load_congr (agreeOn_mono hagree (by omega) (by omega))]

end Changes

section Listing

variable {name : List UInt8} {c : Nat} {entry t : Mem}

/-- With the entry written, the listing is right as soon as the set of the
    enumerated entries is. -/
theorem listedWith_iff (ht : Target v (nameTo83 name) i entry t) (hsize : size < 2 ^ 32)
    (hr : v.ready = true) (hb : v'.bpb = v.bpb) (hr' : v'.ready = v.ready)
    (hu : DirUpdate v.bpb.rootEntryCount (readRootEntry v.bpb v.disk)
      (readRootEntry v.bpb v'.disk) i (filled entry c size)) :
    ListedWith v v' name size i ↔
      ∀ k, Regular v.bpb.rootEntryCount (readRootEntry v.bpb v'.disk) k ↔
        Regular v.bpb.rootEntryCount (readRootEntry v.bpb v.disk) k ∨ k = i := by
  have hmem : ∀ k, k ∈ v'.listedEntries ↔
      Regular v.bpb.rootEntryCount (readRootEntry v.bpb v'.disk) k := by
    intro k
    rw [mem_listedEntries (hr'.trans hr), hb]
  constructor
  · intro h k
    rw [← hmem, ← mem_listedEntries hr]
    exact h.entries k
  · intro h
    refine ⟨fun k => ?_, fun k hk hki => ?_, ?_⟩
    · rw [hmem, mem_listedEntries hr]
      exact h k
    · rw [hb]
      exact shown_other hu ((mem_listedEntries hr).mp hk).1 hki
    · rw [hb, shownEntry, dirUpdate_name hu, ht.name (nameTo83_length name),
        dirUpdate_size hu hsize]

/-- A write that succeeds changes the listing by exactly its file, if and only
    if the directory is tidy for that name. -/
theorem listing_changes_iff {phys : Nat → Nat} {ata : Nat → Nat → WriteOutcome} {buf : Mem}
    (hname : ∀ x ∈ name, x ≠ 0) (hsize : size < 2 ^ 32)
    (hw : v.writeFile phys ata name buf size = some (v', 0)) :
    (∃ i, v.slotFor (nameTo83 name) = some i ∧ ListedWith v v' name size i) ↔
      v.Tidy (nameTo83 name) := by
  rcases writeFile_updates hw with ⟨hr, hb, hr', i, entry, t, c, ht, hu⟩
  have hslot := ht.slot
  have hone : (∃ j, v.slotFor (nameTo83 name) = some j ∧ ListedWith v v' name size j) ↔
      ListedWith v v' name size i := by
    rw [hslot]
    simp only [Option.some.injEq, exists_eq_left']
  rw [hone, listedWith_iff ht hsize hr hb hr' hu]
  have hlt := ht.lt
  cases ht with
  | rewrite hfind hentry _ =>
    -- The enumerated entries are the same, so the entry has to be one.
    rw [hentry] at hu
    have hlist := (findRootEntry_some.mp hfind).1
    have htidy : v.Tidy (nameTo83 name) ↔
        attrOf (readRootEntry v.bpb v.disk i) &&& 0x10 = 0 := by
      simp only [Tidy, hfind, Option.some.injEq, forall_eq', reduceCtorEq, false_implies,
        and_true]
    rw [htidy, ← regular_iff_of_listed hlist]
    constructor
    · intro h
      exact (regular_rewrite hu i hlt).mp ((h i).mpr (Or.inr rfl))
    · intro hreg k
      constructor
      · exact fun hk => Or.inl ((regular_rewrite hu k hk.1).mp hk)
      · rintro (hk | rfl)
        · exact (regular_rewrite hu k hk.1).mpr hk
        · exact (regular_rewrite hu k hlt).mpr hreg
  | create hfind hfree hentry _ =>
    rw [hentry] at hu
    rcases findFreeRootEntry_some hfree with ⟨_, hmark, hpre⟩
    have hlen := nameTo83_length name
    have hhead : (nameTo83 name).head? ≠ some 0x00 := fun h0 => nameTo83_ne_end hname h0 rfl
    have hfilled : ∀ k, k ≠ i → _ := fun k hki => regular_filled hlen hhead hu hki
    have htidy : v.Tidy (nameTo83 name) ↔ (nameTo83 name).head? ≠ some 0xE5 ∧
        (readRootEntry v.bpb v.disk i 0 = 0x00 → v.NothingBehind i) := by
      simp only [Tidy, hfind, hfree, Option.some.injEq, forall_eq', reduceCtorEq, false_implies,
        implies_true, true_and, forall_const]
    rw [htidy]
    constructor
    · intro h
      have hreg := (h i).mpr (Or.inr rfl)
      refine ⟨fun hdel => hreg.2.2 (Or.inl ?_), fun hzero k hik hk hall => ?_⟩
      · exact Option.some.inj ((created_first hlen hu).symm.trans hdel)
      · -- A regular file behind the old end would be new in the listing.
        by_contra hpass
        have hnew := (hfilled k (by omega)).mpr ⟨hk, fun j hj hji => ?_, hpass⟩
        · rcases (h k).mp hnew with hold | rfl
          · exact hold.2.1 i (by omega) hzero
          · omega
        · by_cases hlo : j < i
          · exact hpre j hlo
          · exact hall j (by omega) hj
    · rintro ⟨hdel, hbehind⟩ k
      have hregi : Regular v.bpb.rootEntryCount (readRootEntry v.bpb v'.disk) i :=
        regular_created hlen hhead hdel hlt hpre hu
      by_cases hki : k = i
      · rw [hki]
        exact ⟨fun _ => Or.inr rfl, fun _ => hregi⟩
      rw [hfilled k hki]
      constructor
      · rintro ⟨hk, hall, hpass⟩
        refine Or.inl ⟨hk, fun j hj => ?_, hpass⟩
        by_cases hji : j = i
        · -- The slot was no end, or nothing comes behind it.
          rw [hji]
          intro hzero
          refine hpass (hbehind hzero k (by omega) hk (fun x hx hxk => ?_))
          exact hall x hxk (by omega)
        · exact hall j hj hji
      · rintro (hold | rfl)
        · exact ⟨hold.1, fun j hj _ => hold.2.1 j hj, hold.2.2⟩
        · exact absurd rfl hki

end Listing

/-- A new file `A` on the small volume: the directory ends behind the slot
    that it takes. -/
theorem listing_changes_sample :
    ∃ h v' i, (sample h).writeFile samplePhys (fun _ _ => .ok) [0x41] (fun i => UInt8.ofNat i) 3 =
        some (v', 0) ∧ (sample h).slotFor (nameTo83 [0x41]) = some i ∧
      ListedWith (sample h) v' [0x41] 3 i := by
  rcases written_sample with ⟨h, v', _, hw⟩
  have hnone : findRootEntry (sample h).bpb (sample h).disk (nameTo83 [0x41]) = none :=
    find_sample.2.1
  have hfree : findFreeRootEntry (sample h).bpb (sample h).disk = some 1 := find_sample.2.2
  have hend : readRootEntry (Bpb.parse sampleBoot) sampleDisk 2 0 = 0x00 := by decide
  have htidy : (sample h).Tidy (nameTo83 [0x41]) := by
    refine ⟨fun i hi => ?_, fun _ => ⟨by decide, fun i hi _ k hik _ hall => ?_⟩⟩
    · rw [hnone] at hi
      cases hi
    · rw [hfree, Option.some.injEq] at hi
      exact absurd hend (hall 2 (by omega) (by omega))
  have hname : ∀ c ∈ [(0x41 : UInt8)], c ≠ 0 := by simp
  rcases (listing_changes_iff hname (by decide) hw).mpr htidy with ⟨i, hi, hlist⟩
  exact ⟨h, v', i, hw, hi, hlist⟩

/-- A disk with the file `B`, the end of the directory, and behind it an old
    entry of a file `C`. -/
def staleDisk : Disk where
  sector := fun l =>
    if l = 0 then sampleBoot
    else if l = 1 then sampleTable
    else if l = 2 then
      copy (copy (fun _ => 0) 0 (filled (newEntry (nameTo83 [0x42])) 3 3) 32) 64
        (filled (newEntry (nameTo83 [0x43])) 9 5) 32
    else fun _ => 0
  writes := 0

/-- Creating `A` takes the slot that was the end, and the old entry of `C` is
    listed from then on. -/
theorem listing_stale_entry :
    listFiles { sample { mem := fun _ => 0, head := 0, pages := 0 } with disk := staleDisk } =
        [([0x42], 3)] ∧
      ((Heap.init samplePhys (fun _ => 0)).bind (fun h =>
        writeFile samplePhys (fun _ _ => .ok) [0x41] (fun i => UInt8.ofNat i) 2
          { sample h with disk := staleDisk })).map (fun r => (r.2, listFiles r.1)) =
        some (0, [([0x42], 3), ([0x41], 2), ([0x43], 5)]) := by
  decide

end SysRust.Fat16
