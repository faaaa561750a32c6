import SysRust.Lib.Machine
import SysRust.Theory.Fat16.RoundTrip

/-!
# Chains Over Whole Runs

Any number of calls to `write_file`, with any outcome. The question is
whether the chains that start in the root directory stay apart and in use.

They need not. An existing file loses its chain in the cached FAT before the
new data is known to fit, and its entry is rewritten only at the end, so a
call that gives up in between leaves an entry that points to free clusters;
the next allocation hands them to another file. And a file created in the
slot that ends the directory makes whatever stands behind it part of the
directory.

`Careful` rules these out. Running out of clusters is not among them: when
the disk is full, the freed clusters have all been taken again, so the old
entry points into the unfinished chain and not to free clusters.

## Main definitions

* `Request`, `sessions`: Calls to `write_file` on a mounted volume.
* `Careful`: The calls that cannot leave a chain behind.

## Theorems

* `chains_step`: The chains after one call.
* `chains_reachable`: In every careful run all chains stay sound.
* `failed_write_frees_chain`: One failed sector write, and they are not.
-/

namespace SysRust.Fat16

/-- One call to `write_file`, with the answers it gets from the page allocator
    and from the disk. -/
structure Request where
  name : List UInt8
  data : Mem
  size : Nat
  phys : Nat → Nat
  ata : Nat → Nat → WriteOutcome

/-- All runs of `write_file` from a mounted volume with sound files. Names are
    C strings and sizes 32-bit. -/
def sessions : Machine Fat16 Request where
  start := fun v => Mounted v ∧ FilesSound v
  allows := fun _ r => (∀ c ∈ r.name, c ≠ 0) ∧ r.size < 2 ^ 32
  exec := fun v r => (v.writeFile r.phys r.ata r.name r.data r.size).map Prod.fst

/-- A new file goes to a deleted slot or right in front of the end of the
    directory. A file with clusters is only rewritten when there is a buffer,
    no write to the directory or the data area fails, and its first cluster
    is one that allocation can hand out again. -/
structure Careful (v : Fat16) (r : Request) : Prop where
  create : ∀ i, findRootEntry v.bpb v.disk (nameTo83 r.name) = none →
    findFreeRootEntry v.bpb v.disk = some i →
    readRootEntry v.bpb v.disk i 0 = 0xE5 ∨ v.bpb.rootEntryCount ≤ i + 1 ∨
      readRootEntry v.bpb v.disk (i + 1) 0 = 0x00
  rewrite : ∀ i, findRootEntry v.bpb v.disk (nameTo83 r.name) = some i →
    IsCluster (firstClusterOf (readRootEntry v.bpb v.disk i)) →
    (∀ h, Heap.kmalloc r.phys v.bpb.clusterSize v.heap ≠ some (h, 0)) ∧
      (∀ k l, v.bpb.firstRootSector ≤ l → r.ata k l = .ok) ∧
      firstClusterOf (readRootEntry v.bpb v.disk i) < u16 v.fatEntries

/-! ### One call -/

section Step

variable {v v' : Fat16} {fatName : List UInt8} {i size : Nat} {entry t : Mem} {p : Cursor}
  {l : List Nat} {ch : Nat → List Nat} {phys : Nat → Nat} {ata : Nat → Nat → WriteOutcome}

/-- The chains after a call, if nothing else came to be listed and the entry of
    the file starts a chain inside of what was appended. -/
theorem chains_step (hc : Chains v ch) (ht : Target v fatName i entry t)
    (he : Effect phys ata size i entry { v with fatTable := t } v' p l)
    (hold : ∀ j, Listed v.bpb.rootEntryCount (readRootEntry v.bpb v'.disk) j → j ≠ i →
      v.Lists j ∧ firstClusterOf (readRootEntry v.bpb v'.disk j) =
        firstClusterOf (readRootEntry v.bpb v.disk j))
    (hself : Listed v.bpb.rootEntryCount (readRootEntry v.bpb v'.disk) i → ∃ ys, ys ⊆ l ∧
      FileChain p.table v.fatEntries (firstClusterOf (readRootEntry v.bpb v'.disk i)) ys) :
    FilesSound v' := by
  have hbpb : v'.bpb = v.bpb := he.bpb
  have hlists : ∀ j, v'.Lists j →
      Listed v.bpb.rootEntryCount (readRootEntry v.bpb v'.disk) j := by
    intro j hj
    rw [Lists, hbpb] at hj
    exact hj
  obtain ⟨ys, hys⟩ : ∃ ys, v'.Lists i → ys ⊆ l ∧ FileChain p.table v.fatEntries
      (firstClusterOf (readRootEntry v.bpb v'.disk i)) ys := by
    by_cases hi : v'.Lists i
    · rcases hself (hlists i hi) with ⟨ys, hys⟩
      exact ⟨ys, fun _ => hys⟩
    · exact ⟨[], fun h => absurd h hi⟩
  refine ⟨fun j => if j = i then ys else ch j, fun j hj => ?_, fun j k hj hk hjk => ?_⟩
  · rw [hbpb, he.table, he.entries]
    by_cases hji : j = i
    · rw [if_pos hji, hji]
      exact (hys (hji ▸ hj)).2
    · rcases hold j (hlists j hj) hji with ⟨hlj, hfirst⟩
      rw [if_neg hji, hfirst]
      exact grown_keeps he.grown (ht.keeps hc hlj hji)
  · have hnew : ∀ m, v'.Lists m → m ≠ i → v'.Lists i → List.Disjoint (ch m) ys :=
      fun m hm' hmi hi x hx hxy =>
        grown_disjoint he.grown (ht.keeps hc (hold m (hlists m hm') hmi).1 hmi) hx ((hys hi).1 hxy)
    by_cases hji : j = i
    · have hki : k ≠ i := fun hki => hjk (hji.trans hki.symm)
      rw [if_pos hji, if_neg hki]
      exact fun x hx hxk => hnew k hk hki (hji ▸ hj) hxk hx
    · by_cases hki : k = i
      · rw [if_neg hji, if_pos hki]
        exact hnew j hj hji (hki ▸ hk)
      · rw [if_neg hji, if_neg hki]
        exact hc.disjoint j k (hold j (hlists j hj) hji).1 (hold k (hlists k hk) hki).1 hjk

end Step

/-- When the disk is full, the first cluster of a freed chain has been taken
    again. -/
theorem freed_taken {v : Fat16} {ch : Nat → List Nat} {i : Nat} {t : Mem} {p : Cursor}
    {l : List Nat} (hc : Chains v ch) (hi : v.Lists i)
    (hfree : freeChain v.fatEntries chainBound v.fatTable
      (firstClusterOf (readRootEntry v.bpb v.disk i)) = some t)
    (hg : Grown t v.fatEntries p l)
    (hfull : ∀ j, 2 ≤ j → j < u16 v.fatEntries → fatAt p.table j ≠ 0)
    (hlink : IsCluster (firstClusterOf (readRootEntry v.bpb v.disk i)))
    (hlt : firstClusterOf (readRootEntry v.bpb v.disk i) < u16 v.fatEntries) :
    firstClusterOf (readRootEntry v.bpb v.disk i) ∈ l := by
  have hchain := hc.chain i hi
  have hmem : firstClusterOf (readRootEntry v.bpb v.disk i) ∈ ch i := by
    have h := hchain.chain
    cases hl : ch i with
    | nil => rw [hl] at h; exact absurd hlink h
    | cons x xs => rw [hl] at h; rw [h.2.1]; exact List.mem_cons_self
  rcases freeChain_spec hchain hchain.length_lt with ⟨t', ht', hzero, _⟩
  rw [ht', Option.some.injEq] at hfree
  by_contra hout
  refine hfull _ hlink.1 hlt ?_
  rw [hg.frame _ hout, ← hfree]
  exact hzero _ hmem

/-- One careful call keeps the chains sound. -/
theorem filesSound_step {v v' : Fat16} {r : Request} (hm : v.fatEntries % 256 = 0)
    (hf : FilesSound v) (hcare : Careful v r)
    (h : sessions.exec v r = some v') : v'.fatEntries = v.fatEntries ∧ FilesSound v' := by
  rcases hf with ⟨ch, hc⟩
  rcases Option.map_eq_some_iff.mp h with ⟨⟨u, code⟩, hw, rfl⟩
  rcases writeFile_cases hw with ⟨rfl, _⟩ | ⟨i, entry, t, ht, hwd⟩
  · exact ⟨rfl, ch, hc⟩
  rcases writeData_effect hwd with ⟨p, l, he, _⟩
  refine ⟨he.entries, ?_⟩
  rcases he.dir with ⟨hdir, hblock⟩ | hu
  · -- The directory is as it was, so the old entry gets what follows it in the
    -- new chain.
    have hlisted : ∀ j, Listed v.bpb.rootEntryCount (readRootEntry v.bpb u.disk) j →
        v.Lists j := fun j =>
      listed_congr (fun k hk _ => by rw [hdir k hk]) (fun hk => by rw [hdir j hk])
    refine chains_step hc ht he (fun j hj _ => ⟨hlisted j hj, by rw [hdir j hj.1]⟩) (fun hi => ?_)
    rw [hdir i hi.1]
    replace hi := hlisted i hi
    cases ht with
    | create _ hslot _ _ =>
      -- A free slot is not listed.
      rcases (findFreeRootEntry_some hslot).2.1 with h0 | h0
      · exact absurd h0 (hi.2.1 i (Nat.le_refl _))
      · exact absurd h0 hi.2.2.1
    | rewrite hfind hentry hfree =>
      by_cases hlink : IsCluster (firstClusterOf (readRootEntry v.bpb v.disk i))
      · rcases hcare.rewrite i hfind hlink with ⟨hbuf, hata, hlt⟩
        cases hblock with
        | noBuffer g hk => exact absurd hk (hbuf g)
        | write k s hs hbad => exact absurd (hata k s hs) hbad
        | full hfull =>
          rw [he.table] at hfull
          rw [hentry] at hfree
          exact grown_suffix he.grown hm
            (freed_taken (v := v) hc hi hfree he.grown hfull hlink hlt)
      · exact ⟨[], List.nil_subset _, hlink, List.forall_mem_nil _,
          List.forall_mem_nil _⟩
  · -- The written entry starts the chain that was appended.
    refine chains_step hc ht he (fun j hj hji => ⟨?_, load_congr
      (agreeOn_mono (hu.2 j hj.1 hji) (by omega) (by omega))⟩)
      (fun _ => ⟨l, List.Subset.refl l, ?_⟩)
    swap
    · rw [dirUpdate_cluster hu he.grown.first_lt]
      exact grown_chain he.grown hm
    cases ht with
    | rewrite hfind hentry _ =>
      exact ((listed_rewrite hu
        (by rw [hentry]; exact filled_header _ _ _)).1 j).mp hj
    | create hfind hslot _ _ => exact listed_of_create hu (hcare.create i hfind hslot) hj hji

/-! ### Whole runs -/

/-- In every careful run, the chains of the files are in use, inside of the
    table, terminated and pairwise disjoint. -/
theorem chains_reachable {v : Fat16} (hv : (sessions.restrict Careful).Reachable v) :
    FilesSound v := by
  refine (Machine.Reachable.invariant (M := sessions.restrict Careful)
    (fun v => v.fatEntries % 256 = 0 ∧ FilesSound v) ?_ ?_ hv).2
  · rintro v ⟨hm, hf⟩
    exact ⟨hm.entries_mod, hf⟩
  · rintro v v' r ⟨hmod, hf⟩ ⟨_, hcare⟩ he
    rcases filesSound_step hmod hf hcare he with ⟨hentries, hsound⟩
    exact ⟨by rw [hentries]; exact hmod, hsound⟩

/-- The request that writes three bytes to a file whose name is one byte. -/
def sampleRequest (c : UInt8) (ata : Nat → Nat → WriteOutcome) : Request where
  name := [c]
  data := fun i => UInt8.ofNat i
  size := 3
  phys := samplePhys
  ata := ata

/-- Rewriting the file of the small volume, with no failure, is careful. -/
theorem chains_reachable_sample :
    ∃ h v, sessions.exec (sample h) (sampleRequest 0x42 (fun _ _ => .ok)) = some v ∧
      FilesSound v := by
  have hrun : ((Heap.init samplePhys (fun _ => 0)).bind (fun h =>
      (sessions.exec (sample h) (sampleRequest 0x42 (fun _ _ => .ok))).map (fun v =>
        decide (∀ g, g ∈ (Heap.kmalloc samplePhys 512 h).map Prod.snd → g ≠ 0)))) =
      some true := by
    decide
  rcases Option.bind_eq_some_iff.mp hrun with ⟨h, hi, hrun⟩
  rcases Option.map_eq_some_iff.mp hrun with ⟨v, hv, hbuf⟩
  have hcare : Careful (sample h) (sampleRequest 0x42 (fun _ _ => .ok)) := by
    refine ⟨fun i hnone => ?_, fun i hsome _ => ⟨fun g hg => ?_, fun _ _ _ => rfl, ?_⟩⟩
    · have habs : some 0 = none := find_sample.1.symm.trans hnone
      cases habs
    · have hsize : (Bpb.parse sampleBoot).clusterSize = 512 := by decide
      simp only [sample, sampleRequest, hsize] at hg
      rw [hg] at hbuf
      simp only [Option.map_some, Option.mem_def, Option.some.injEq, decide_eq_true_eq] at hbuf
      exact hbuf 0 rfl rfl
    · have h0 : some 0 = some i := find_sample.1.symm.trans hsome
      rw [Option.some.injEq] at h0
      simp only [sample, ← h0, first_sample]
      decide
  have hstart : (sessions.restrict Careful).Reachable (sample h) :=
    Machine.Reachable.start _ ⟨mounted_sample h, filesSound_sample h⟩
  have hname : ∀ c ∈ [(0x42 : UInt8)], c ≠ 0 := List.forall_mem_singleton.mpr (by decide)
  have hstep : (sessions.restrict Careful).Reachable v :=
    Machine.Reachable.step _ _ _ hstart ⟨⟨hname, by decide⟩, hcare⟩ hv
  exact ⟨h, v, hv, chains_reachable hstep⟩

/-- When the first data sector of the new contents cannot be written, the
    entry of the file is left pointing to a cluster that is marked free. -/
theorem failed_write_frees_chain :
    ∃ v t, sessions.Reachable v ∧
      sessions.exec v (sampleRequest 0x42 (fun _ _ => .failed)) = some t ∧ ¬ FilesSound t := by
  have hrun : ((Heap.init samplePhys (fun _ => 0)).bind (fun h =>
      (sessions.exec (sample h) (sampleRequest 0x42 (fun _ _ => .failed))).map (fun t =>
        decide (t.bpb.rootEntryCount = 16 ∧ readRootEntry t.bpb t.disk 0 0 = 0x42 ∧
          readRootEntry t.bpb t.disk 0 11 = 0x20 ∧
          firstClusterOf (readRootEntry t.bpb t.disk 0) = 3 ∧ fatAt t.fatTable 3 = 0)))) =
      some true := by
    decide
  rcases Option.bind_eq_some_iff.mp hrun with ⟨h, _, hrun⟩
  rcases Option.map_eq_some_iff.mp hrun with ⟨t, ht, hbad⟩
  rw [decide_eq_true_eq] at hbad
  rcases hbad with ⟨hcount, h0, h11, hfirst, hzero⟩
  refine ⟨sample h, t, Machine.Reachable.start _ ⟨mounted_sample h, filesSound_sample h⟩, ht, ?_⟩
  rintro ⟨ch, hc⟩
  have hlist : t.Lists 0 := by
    refine ⟨by omega, fun j hj => ?_, by rw [h0]; decide, by rw [IsSkipped, attrOf, h11]; decide⟩
    rw [Nat.le_zero.mp hj, h0]
    decide
  have hchain := hc.chain 0 hlist
  rw [hfirst] at hchain
  -- A chain from cluster 3 passes it, and it is not in use.
  cases hl : ch 0 with
  | nil =>
    rw [hl] at hchain
    exact hchain.chain (by decide)
  | cons x xs =>
    rw [hl] at hchain
    have hx : x = 3 := hchain.chain.2.1
    exact hchain.used x List.mem_cons_self (hx ▸ hzero)

end SysRust.Fat16
