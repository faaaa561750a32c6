import Mathlib.Data.Nat.Nth
import SysRust.Theory.Fat16.RoundTrip

/-!
# The Regular Files by Number

The loops behind `get_file_count`, `get_file_name` and `get_file_size` walk
the directory and count. Said without the loops: the number of a regular file
is the count of regular files in front of it.

That is also why a number is no name. A file that is created in a free slot
is counted by every file behind it, and their numbers go up by one. A file in
front of the slot keeps its number, and so does every file when an existing
one is rewritten, because its entry keeps its header.

## Main definitions

* `Regular`: The entry is one that enumeration counts.
* `SameHead`: An entry reads the same to lookups and to enumeration.

## Theorems

* `listLoop_eq`, `countFiles_eq`, `seekFile_eq`: The three loops.
* `fileEntry_some`: Enumeration is counting.
* `fileEntry_keeps`, `findRootEntry_keeps`: What depends only on the entries
  up to a file.
* `writeFile_dir`: What a write does to the directory.
* `regular_create`, `regular_created`: The regular files after a new one.
-/

namespace SysRust.Fat16

/-- The entry at `i` is one that enumeration counts: in front of the end of
    the directory, and not passed over. -/
def Regular (count : Nat) (dir : Nat → Mem) (i : Nat) : Prop :=
  i < count ∧ (∀ j, j ≤ i → dir j 0 ≠ 0x00) ∧ ¬ IsPassed (dir i)

instance (count : Nat) (dir : Nat → Mem) : DecidablePred (Regular count dir) := fun i =>
  inferInstanceAs (Decidable (i < count ∧ (∀ j, j ≤ i → dir j 0 ≠ 0x00) ∧ ¬ IsPassed (dir i)))

variable {count i k size : Nat} {dir : Nat → Mem} {p : Nat → Prop} {name : List UInt8}
  {phys : Nat → Nat}

theorem Regular.listed (h : Regular count dir i) : Listed count dir i :=
  ⟨h.1, h.2.1, fun h0 => h.2.2 (Or.inl h0), fun hs => h.2.2 (Or.inr (Or.inl hs))⟩

/-! ### Enumeration is counting -/

variable {m index : Nat} {v v' : Fat16}

section Count

variable {b : Bpb} {d : Disk}

/-- The loop of `list_files`, from `i` on: it takes the regular files. -/
theorem listLoop_from (n i : Nat) (hn : i + n = b.rootEntryCount)
    (hpre : ∀ j, j < i → readRootEntry b d j 0 ≠ 0x00) :
    listLoop b d n i = (List.range' i n).filter (fun k =>
      decide (Regular b.rootEntryCount (readRootEntry b d) k)) := by
  induction n generalizing i with
  | zero => rfl
  | succ n ih =>
    rw [listLoop]
    by_cases hend : readRootEntry b d i 0 = 0x00
    · rw [if_pos hend, eq_comm, List.filter_eq_nil_iff]
      intro k hk hreg
      exact (of_decide_eq_true hreg).2.1 i (List.mem_range'_1.mp hk).1 hend
    have hpre' : ∀ j, j < i + 1 → readRootEntry b d j 0 ≠ 0x00 :=
      Nat.forall_lt_succ_right.mpr ⟨hpre, hend⟩
    have hreg : Regular b.rootEntryCount (readRootEntry b d) i ↔
        ¬ IsPassed (readRootEntry b d i) :=
      ⟨fun h => h.2.2, fun h => ⟨by omega, fun j hj => hpre' j (by omega), h⟩⟩
    rw [if_neg hend, ih (i + 1) (by omega) hpre', List.range'_succ, List.filter_cons]
    simp only [hreg, decide_eq_true_eq, ite_not]

theorem listLoop_eq (b : Bpb) (d : Disk) :
    listLoop b d b.rootEntryCount 0 = (List.range b.rootEntryCount).filter (fun k =>
      decide (Regular b.rootEntryCount (readRootEntry b d) k)) := by
  rw [List.range_eq_range']
  exact listLoop_from _ 0 (Nat.zero_add _) (fun j hj => absurd hj (Nat.not_lt_zero j))

/-- The counting loop counts what the listing loop takes. -/
theorem countFiles_eq (n i count : Nat) :
    countFiles b d n i count = count + (listLoop b d n i).length := by
  induction n generalizing i count with
  | zero => rfl
  | succ n ih =>
    rw [countFiles, listLoop]
    split_ifs
    · rfl
    · exact ih (i + 1) count
    · rw [ih, List.length_cons]
      omega

/-- The searching loop takes the one with the number that is left to go. -/
theorem seekFile_eq (n i : Nat) (h : count ≤ index) :
    seekFile b d index n i count = (listLoop b d n i)[index - count]? := by
  induction n generalizing i count with
  | zero => rfl
  | succ n ih =>
    rw [seekFile, listLoop]
    split_ifs with _ _ hidx
    · rfl
    · exact ih (i + 1) h
    · rw [hidx, Nat.sub_self]
      rfl
    · rw [ih (i + 1) (by omega), show index - count = index - (count + 1) + 1 by omega]
      rfl

theorem length_filter_range [DecidablePred p] (n : Nat) :
    ((List.range n).filter (fun k => decide (p k))).length = Nat.count p n := by
  induction n with
  | zero => rfl
  | succ n ih =>
    rw [List.range_succ, List.filter_append, List.length_append, ih, Nat.count_succ]
    by_cases hp : p n
    · simp [hp]
    · simp [hp]

/-- The number of an element is the count of those in front of it. -/
theorem filter_range_get [DecidablePred p] (n : Nat) :
    ((List.range n).filter (fun k => decide (p k)))[m]? = some k ↔
      k < n ∧ p k ∧ Nat.count p k = m := by
  induction n with
  | zero => simp
  | succ n ih =>
    rw [List.range_succ, List.filter_append, List.getElem?_append, length_filter_range]
    by_cases hm : m < Nat.count p n
    · rw [if_pos hm, ih]
      refine and_congr_left (fun h => ⟨fun hk => by omega, fun hk => ?_⟩)
      have hne : k ≠ n := fun hkn => by rw [hkn] at h; omega
      omega
    · rw [if_neg hm]
      -- Only `n` itself can have the number.
      have hlast : k < n + 1 ∧ p k ∧ Nat.count p k = m ↔ p n ∧ n = k ∧ Nat.count p n = m := by
        refine ⟨fun ⟨hk, hp, hcount⟩ => ?_, fun ⟨hp, hnk, hcount⟩ => hnk ▸ ⟨by omega, hp, hcount⟩⟩
        rcases Nat.lt_succ_iff_lt_or_eq.mp hk with hlt | rfl
        · have hless := Nat.count_strict_mono hp hlt
          omega
        · exact ⟨hp, rfl, hcount⟩
      rw [hlast]
      by_cases hp : p n
      · have hzero : m - Nat.count p n = 0 ↔ Nat.count p n = m := by omega
        simp [hp, List.getElem?_singleton, hzero, and_comm]
      · simp [hp]

/-- The file with a number is the regular one with that many in front of
    it. -/
theorem fileEntry_some :
    fileEntry b d index = some k ↔ Regular b.rootEntryCount (readRootEntry b d) k ∧
      Nat.count (Regular b.rootEntryCount (readRootEntry b d)) k = index := by
  rw [fileEntry, seekFile_eq _ 0 (Nat.zero_le _), listLoop_eq, Nat.sub_zero, filter_range_get]
  exact ⟨fun h => h.2, fun h => ⟨h.1.1, h⟩⟩

/-- Files are numbered in the order of their entries. -/
theorem fileEntry_lt {n j : Nat} (hj : fileEntry b d m = some j) (hk : fileEntry b d n = some k)
    (h : j < k) : m < n := by
  rcases fileEntry_some.mp hj with ⟨hreg, rfl⟩
  rcases fileEntry_some.mp hk with ⟨_, rfl⟩
  exact Nat.count_strict_mono hreg h

theorem exists_of_lt_count [DecidablePred p] (h : index < Nat.count p m) :
    ∃ k, p k ∧ Nat.count p k = index := by
  have hcard (hf : (Set.ofPred p).Finite) : index < hf.toFinset.card :=
    Nat.lt_of_lt_of_le h (Nat.count_le_card hf m)
  exact ⟨Nat.nth p index, Nat.nth_mem index hcard, Nat.count_nth hcard⟩

end Count

theorem getFileCount_eq (hr : v.ready = true) :
    v.getFileCount =
      Nat.count (Regular v.bpb.rootEntryCount (readRootEntry v.bpb v.disk))
        v.bpb.rootEntryCount := by
  rw [getFileCount, if_neg (by rw [hr]; exact Bool.noConfusion), countFiles_eq, listLoop_eq,
    length_filter_range, Nat.zero_add]

/-- Every number below the count is the number of a file. -/
theorem fileEntry_isSome (hr : v.ready = true) (h : index < v.getFileCount) :
    ∃ k, fileEntry v.bpb v.disk index = some k := by
  rw [getFileCount_eq hr] at h
  rcases exists_of_lt_count h with ⟨k, hk⟩
  exact ⟨k, fileEntry_some.mpr hk⟩

/-! ### Directories that agree up to a file -/

/-- The entry reads the same to lookups and to enumeration: its name and its
    attributes are the same, or it is a deleted one in both. -/
def SameHead (e' e : Mem) : Prop := AgreeOn e' e 0 12 ∨ (e' 0 = 0xE5 ∧ e 0 = 0xE5)

theorem SameHead.first {e' e : Mem} (h : SameHead e' e) : e' 0 = e 0 := by
  rcases h with h | ⟨h', h⟩
  · exact h 0 (by omega) (by omega)
  · rw [h', h]

theorem SameHead.passed {e' e : Mem} (h : SameHead e' e) : IsPassed e' ↔ IsPassed e := by
  rcases h with h | ⟨h', h⟩
  · simp only [IsPassed, IsSkipped, attrOf, h 0 (by omega) (by omega), h 11 (by omega) (by omega)]
  · exact ⟨fun _ => Or.inl h, fun _ => Or.inl h'⟩

section Agree

variable {b : Bpb} {d d' : Disk}

theorem regular_keeps {dir' : Nat → Mem} (h : ∀ j, j ≤ k → SameHead (dir' j) (dir j)) :
    Regular count dir' k ↔ Regular count dir k := by
  have hfirst : (∀ j, j ≤ k → dir' j 0 ≠ 0x00) ↔ ∀ j, j ≤ k → dir j 0 ≠ 0x00 :=
    forall_congr' (fun j => forall_congr' (fun hj => by rw [(h j hj).first]))
  rw [Regular, Regular, hfirst, (h k (Nat.le_refl _)).passed]

/-- A file keeps its number if the entries in front of it read the same. -/
theorem fileEntry_keeps (h : ∀ j, j ≤ k → SameHead (readRootEntry b d' j) (readRootEntry b d j))
    (hk : fileEntry b d index = some k) : fileEntry b d' index = some k := by
  rcases fileEntry_some.mp hk with ⟨hreg, hcount⟩
  have hiff : ∀ j, j ≤ k → (Regular b.rootEntryCount (readRootEntry b d') j ↔
      Regular b.rootEntryCount (readRootEntry b d) j) :=
    fun j hj => regular_keeps (fun x hx => h x (by omega))
  refine fileEntry_some.mpr ⟨(hiff k (Nat.le_refl _)).mpr hreg, ?_⟩
  rw [← hcount]
  refine Nat.le_antisymm ?_ ?_
  · exact Nat.count_mono_left (fun j hj => (hiff j (by omega)).mp)
  · exact Nat.count_mono_left (fun j hj => (hiff j (by omega)).mpr)

/-- A lookup finds the file it found. -/
theorem findRootEntry_keeps {fatName : List UInt8}
    (h : ∀ j, j ≤ k → SameHead (readRootEntry b d' j) (readRootEntry b d j))
    (hk : findRootEntry b d fatName = some k) :
    findRootEntry b d' fatName = some k ∧
      nameOf (readRootEntry b d' k) = nameOf (readRootEntry b d k) := by
  rcases findRootEntry_some.mp hk with ⟨hlist, hname, hfirst⟩
  -- A listed entry is no deleted one, so it has its old name.
  have hsame : ∀ j, j ≤ k → readRootEntry b d' j 0 ≠ 0xE5 →
      AgreeOn (readRootEntry b d' j) (readRootEntry b d j) 0 12 := by
    intro j hj hne
    rcases h j hj with hagree | ⟨hdel, _⟩
    · exact hagree
    · exact absurd hdel hne
  have hnames : ∀ j, j ≤ k → readRootEntry b d' j 0 ≠ 0xE5 →
      nameOf (readRootEntry b d' j) = nameOf (readRootEntry b d j) := fun j hj hne =>
    nameOf_congr (agreeOn_mono (hsame j hj hne) (Nat.le_refl _) (by omega))
  have hk0 : readRootEntry b d' k 0 ≠ 0xE5 := by
    rw [(h k (Nat.le_refl _)).first]
    exact hlist.2.2.1
  refine ⟨findRootEntry_some.mpr ⟨?_, (hnames k (Nat.le_refl _) hk0).trans hname, ?_⟩,
    hnames k (Nat.le_refl _) hk0⟩
  · refine listed_congr (fun j _ hj => (h j hj).first) (fun _ => ?_) hlist
    exact hsame k (Nat.le_refl _) hk0 11 (by omega) (by omega)
  · intro j hj hlistj
    rw [hnames j (by omega) hlistj.2.2.1]
    refine hfirst j hj (listed_congr (fun x _ hx => (h x (by omega)).first.symm) (fun _ => ?_)
      hlistj)
    exact (hsame j (by omega) hlistj.2.2.1 11 (by omega) (by omega)).symm

end Agree

/-! ### The directory after a write -/

/-- Reading changes the heap only. -/
theorem readFile_state {buf out : Mem} {n : Int}
    (h : v.readFile phys name buf size = some (v', out, n)) : ∃ g, v' = { v with heap := g } := by
  rcases readFile_buffer h with rfl | ⟨h1, p, _, ⟨_, rfl⟩ | ⟨_, h2, _, rfl⟩⟩
  · exact ⟨v'.heap, rfl⟩
  · exact ⟨h1, rfl⟩
  · exact ⟨h2, rfl⟩

/-- A write leaves the heads of the entries as they are, or it creates a file
    in the first free slot. -/
theorem writeFile_dir {ata : Nat → Nat → WriteOutcome} {buf : Mem} {n : Int}
    (h : v.writeFile phys ata name buf size = some (v', n)) :
    v'.bpb = v.bpb ∧ v'.ready = v.ready ∧
      ((∀ j, j < v.bpb.rootEntryCount →
          AgreeOn (readRootEntry v.bpb v'.disk j) (readRootEntry v.bpb v.disk j) 0 12) ∨
        ∃ i c, findRootEntry v.bpb v.disk (nameTo83 name) = none ∧
          findFreeRootEntry v.bpb v.disk = some i ∧
          DirUpdate v.bpb.rootEntryCount (readRootEntry v.bpb v.disk)
            (readRootEntry v.bpb v'.disk) i (filled (newEntry (nameTo83 name)) c size)) := by
  rcases writeFile_cases h with ⟨rfl, _⟩ | ⟨i, entry, t, ht, hd⟩
  · exact ⟨rfl, rfl, Or.inl (fun j _ => agreeOn_refl _ _ _)⟩
  rcases writeData_effect hd with ⟨p, l, he, _⟩
  refine ⟨he.bpb, he.ready, ?_⟩
  rcases he.dir with ⟨hdir, _⟩ | hu
  · refine Or.inl (fun j hj => ?_)
    have hsame : readRootEntry v.bpb v'.disk j = readRootEntry v.bpb v.disk j := hdir j hj
    rw [hsame]
    exact agreeOn_refl _ _ _
  cases ht with
  | rewrite hfind hentry _ =>
    refine Or.inl (fun j hj => ?_)
    by_cases hji : j = i
    · rw [hji, ← hentry]
      exact agreeOn_mono (dirUpdate_header hu) (Nat.le_refl _) (by omega)
    · exact agreeOn_mono (hu.2 j hj hji) (Nat.le_refl _) (by omega)
  | create hfind hslot hentry _ =>
    rw [hentry] at hu
    exact Or.inr ⟨i, _, hfind, hslot, hu⟩

section Created

variable {dir' : Nat → Mem} {fatName : List UInt8} {c : Nat}

/-- The entry of a created file starts with its name. -/
theorem created_first (hlen : fatName.length = 11)
    (hu : DirUpdate count dir dir' i (filled (newEntry fatName) c size)) :
    fatName.head? = some (dir' i 0) := by
  rw [filled_first hlen c size, hu.1 0 (by omega) (by omega)]

/-- What was a regular file still is one when a free slot is filled. -/
theorem regular_create (hlen : fatName.length = 11) (hhead : fatName.head? ≠ some 0x00)
    (hfree : dir i 0 = 0x00 ∨ dir i 0 = 0xE5)
    (hu : DirUpdate count dir dir' i (filled (newEntry fatName) c size))
    (hk : Regular count dir k) : Regular count dir' k := by
  have he : filled (newEntry fatName) c size 0 ≠ 0x00 := fun h0 =>
    hhead ((filled_first hlen c size).trans (by rw [h0]))
  rcases listed_create hu hfree he hk.listed with ⟨hki, hlist⟩
  have hsame : SameHead (dir' k) (dir k) :=
    Or.inl (agreeOn_mono (hu.2 k hk.1 hki) (Nat.le_refl _) (by omega))
  exact ⟨hk.1, hlist.2.1, fun hp => hk.2.2 (hsame.passed.mp hp)⟩

/-- The created file is regular, unless its name starts like a deleted
    entry. -/
theorem regular_created (hlen : fatName.length = 11) (hhead : fatName.head? ≠ some 0x00)
    (hdel : fatName.head? ≠ some 0xE5) (hi : i < count) (hpre : ∀ j, j < i → dir j 0 ≠ 0x00)
    (hu : DirUpdate count dir dir' i (filled (newEntry fatName) c size)) :
    Regular count dir' i := by
  have hfirst := created_first hlen hu
  have hattr : attrOf (dir' i) = 0x20 := by
    rw [attrOf, dirUpdate_header hu 11 (by omega) (by omega)]
    exact attrOf_newEntry fatName
  refine ⟨hi, fun j hj => ?_, ?_⟩
  · by_cases hji : j = i
    · rw [hji]
      exact fun h0 => hhead (hfirst.trans (by rw [h0]))
    · rw [hu.2 j (by omega) hji 0 (by omega) (by omega)]
      exact hpre j (by omega)
  · rintro (h0 | hs | hd)
    · exact hdel (hfirst.trans (by rw [h0]))
    · rw [IsSkipped, hattr] at hs
      exact absurd hs (by decide)
    · rw [hattr] at hd
      exact absurd hd (by decide)

end Created

end SysRust.Fat16
