import SysRust.Core.Fat16Log
import SysRust.Theory.Fat16.RoundTrip

/-!
# Accesses to the Cached FAT

The disk is not to be trusted: first clusters and links can be any number,
and a chain may run in a circle. `read_file` and `write_file` come back on
every disk. All indices that reading, allocating and flushing touch lie in
the table. The loop that releases an old chain is the exception: it checks
the range before it reads an entry but not before it clears it, so it stays
in the table exactly if the walk along the links does.

The loop clears the entries it walks over, and so it sees another table than
the one it started with. That makes no difference to where it goes: it walks
the links of the old table until it comes back to a cluster it has been to,
and ends there (`freeChainLog_inside`, `freeChainLog_visits`).

## Main definitions

* `Safe`: A call comes back, and touched only entries inside of the table.
* `links`: The cluster after a number of links.
* `ChainInside`: The walk along the links stays in the table.

## Theorems

* `readFileLog_fst`, `writeFileLog_fst`: The log changes no result.
* `writeDataLog_inside`, `readLoopLog_safe`: Everything but the release.
* `freeChainLog_inside_iff`: The release.
* `FileChain.inside`: Sound chains meet the condition.
* `fat_accesses_iff`: When both calls are safe.
-/

namespace SysRust.Fat16

open Function List Option

/-! ### The log changes no result -/

theorem fatNextLog_fst (t : Mem) (entries c : Nat) :
    (fatNextLog t entries c).1 = fatNext t entries c :=
  apply_ite Prod.fst _ _ _

theorem freeChainLog_fst (entries fuel : Nat) (t : Mem) (c : Nat) :
    (freeChainLog entries fuel t c).map Prod.fst = freeChain entries fuel t c := by
  induction fuel generalizing t c with
  | zero => rfl
  | succ fuel ih =>
    rw [freeChainLog, freeChain, apply_ite (Option.map Prod.fst), Option.map_map,
      ← fatNextLog_fst, ← ih]
    rfl

theorem fatScanLog_fst (t : Mem) (n i : Nat) : (fatScanLog t n i).1 = fatScan t n i := by
  induction n generalizing i with
  | zero => rfl
  | succ n ih =>
    rw [fatScanLog, fatScan, apply_ite Prod.fst, ih]

theorem fatAllocLog_fst (entries : Nat) (t : Mem) :
    (fatAllocLog entries t).1 = fatAlloc entries t := by
  simp only [fatAllocLog, fatAlloc, fatScanLog_fst, apply_ite Prod.fst]

theorem appendClusterLog_fst (entries : Nat) (p : Cursor) :
    (appendClusterLog entries p).1 = appendCluster entries p := by
  simp only [appendClusterLog, appendCluster, fatAllocLog_fst, apply_ite Prod.fst]

theorem writeLoopLog_fst (ata : Nat → Nat → WriteOutcome) (b : Bpb) (entries : Nat) (buf : Mem)
    (size fuel : Nat) (p : Cursor) :
    (writeLoopLog ata b entries buf size fuel p).map Prod.fst =
      writeLoop ata b entries buf size fuel p := by
  induction fuel generalizing p with
  | zero => rfl
  | succ fuel ih =>
    rw [writeLoopLog, writeLoop, apply_ite (Option.map Prod.fst), appendClusterLog_fst]
    refine if_congr Iff.rfl ?_ rfl
    cases appendCluster entries p with
    | none => rfl
    | some q =>
      simp only
      rw [apply_ite (Option.map Prod.fst), Option.map_map, ← ih]
      rfl

theorem flushSectorsLog_fst (ata : Nat → Nat → WriteOutcome) (lba : Nat) (t : Mem) (n i : Nat)
    (d : Disk) : (flushSectorsLog ata lba t n i d).1 = writeSectors ata lba t n i d := by
  induction n generalizing i d with
  | zero => rfl
  | succ n ih =>
    simp only [flushSectorsLog, writeSectors, ← ih, apply_ite Prod.fst]

theorem flushCopiesLog_fst (ata : Nat → Nat → WriteOutcome) (b : Bpb) (t : Mem) (n f : Nat)
    (d : Disk) : (flushCopiesLog ata b t n f d).1 = flushCopies ata b t n f d := by
  induction n generalizing f d with
  | zero => rfl
  | succ n ih =>
    simp only [flushCopiesLog, flushCopies, ← ih, flushSectorsLog_fst, apply_ite Prod.fst]

theorem finishWriteLog_fst (ata : Nat → Nat → WriteOutcome) (i : Nat) (e : Mem) (v : Fat16) :
    (finishWriteLog ata i e v).1 = finishWrite ata i e v := by
  simp only [finishWriteLog, finishWrite, fatFlushLog, fatFlush, flushCopiesLog_fst,
    apply_ite Prod.fst]
  rfl

theorem writeDataLog_fst (phys : Nat → Nat) (ata : Nat → Nat → WriteOutcome) (buf : Mem)
    (size i : Nat) (entry : Mem) (v : Fat16) :
    (writeDataLog phys ata buf size i entry v).map Prod.fst =
      writeData phys ata buf size i entry v := by
  rw [writeDataLog, writeData, Option.map_bind]
  refine congrArg _ (funext (fun r => ?_))
  rw [comp_apply]
  rw [apply_ite (Option.map Prod.fst), Option.map_bind, ← writeLoopLog_fst, Option.bind_map]
  refine if_congr Iff.rfl rfl (congrArg _ (funext (fun w => ?_)))
  rw [comp_apply, comp_apply, Option.map_map]
  refine congrArg (fun f => Option.map f (Heap.kfree r.2 r.1)) (funext (fun h => ?_))
  simp only [comp_apply, apply_ite Prod.fst, finishWriteLog_fst]

theorem writeFileLog_fst (phys : Nat → Nat) (ata : Nat → Nat → WriteOutcome) (name : List UInt8)
    (buf : Mem) (size : Nat) (v : Fat16) :
    (v.writeFileLog phys ata name buf size).map Prod.fst =
      v.writeFile phys ata name buf size := by
  rw [writeFileLog, writeFile, apply_ite (Option.map Prod.fst)]
  refine if_congr Iff.rfl rfl ?_
  cases findRootEntry v.bpb v.disk (nameTo83 name) with
  | some i =>
    simp only
    rw [Option.map_bind, ← freeChainLog_fst, Option.bind_map]
    refine congrArg _ (funext (fun t => ?_))
    rw [comp_apply, comp_apply, Option.map_map, ← writeDataLog_fst]
    rfl
  | none =>
    cases findFreeRootEntry v.bpb v.disk with
    | none => rfl
    | some i => exact writeDataLog_fst _ _ _ _ _ _ _

variable {buf t t0 : Mem} {c remaining entries size i n c0 : Nat} {v : Fat16} {l : List Nat}
  {r : Logged Mem}

/-- A read loop that ends is the one without the log. -/
theorem readLoopLog_fst (v : Fat16) (fuel : Nat) {offset : Nat} {cbuf : Mem}
    {r : Logged (Nat × Mem)} (h : v.readLoopLog fuel remaining c offset cbuf buf = some r) :
    v.readLoop fuel remaining c offset cbuf buf = some r.1 := by
  fun_induction readLoopLog v fuel remaining c offset cbuf buf generalizing r with
  | case1 => cases h
  | case2 => rw [← some.inj h, readLoop]
  | case3 fuel remaining c offset cbuf buf hgo ih =>
    rcases bind_eq_some_iff.mp h with ⟨cb, hcb, h⟩
    rcases map_eq_some_iff.mp h with ⟨r', hr', h⟩
    have hrest := ih cb hr'
    rw [fatNextLog_fst] at hrest
    rw [readLoop, if_pos hgo, hcb, bind_some, hrest, ← h]
  | case4 fuel remaining c offset cbuf buf hgo =>
    rw [readLoop, if_neg hgo, ← some.inj h]

variable {phys : Nat → Nat} {ata : Nat → Nat → WriteOutcome}

theorem readFileLog_fst {name : List UInt8} {maxSize : Nat} {r : Logged (Fat16 × Mem × Int)}
    (h : v.readFileLog phys name buf maxSize = some r) :
    v.readFile phys name buf maxSize = some r.1 := by
  rw [readFileLog] at h
  rw [readFile]
  by_cases hr : v.ready = false
  · rw [if_pos hr, some.injEq] at h
    rw [if_pos hr, ← h]
  · rw [if_neg hr] at h ⊢
    cases hfind : findRootEntry v.bpb v.disk (nameTo83 name) with
    | none =>
      simp only [hfind, some.injEq] at h
      simp only [← h]
    | some i =>
      simp only [hfind] at h ⊢
      by_cases hz : fileSizeOf (readRootEntry v.bpb v.disk i) = 0
      · rw [if_pos hz, some.injEq] at h
        rw [if_pos hz, ← h]
      · rw [if_neg hz] at h ⊢
        rcases bind_eq_some_iff.mp h with ⟨k, hk, h⟩
        rw [hk, bind_some]
        by_cases hp : k.2 = 0
        · simp only [if_pos hp, some.injEq] at h ⊢
          rw [← h]
        · simp only [if_neg hp] at h ⊢
          rcases bind_eq_some_iff.mp h with ⟨l, hl, h⟩
          rcases map_eq_some_iff.mp h with ⟨g, hg, h⟩
          rw [readLoopLog_fst v _ hl]
          simp only [hg, map_some, ← h]

/-! ### Reading, allocating and flushing -/

/-- The indices lie in the table. -/
def Inside (entries : Nat) (log : List Nat) : Prop := ∀ x ∈ log, x < entries

theorem inside_nil {entries : Nat} : Inside entries [] :=
  forall_mem_nil _

theorem inside_append {log log' : List Nat} :
    Inside entries (log ++ log') ↔ Inside entries log ∧ Inside entries log' :=
  forall_mem_append

theorem inside_ite {α : Type} {P : Prop} [Decidable P] {x y : Logged α}
    (hx : P → Inside entries x.2) (hy : ¬ P → Inside entries y.2) :
    Inside entries (if P then x else y).2 := by
  by_cases h : P
  · rw [if_pos h]
    exact hx h
  · rw [if_neg h]
    exact hy h

theorem fatNextLog_inside (t : Mem) (entries c : Nat) :
    Inside entries (fatNextLog t entries c).2 :=
  inside_ite (fun _ => inside_nil)
    (fun h => forall_mem_singleton.mpr (Nat.lt_of_not_le h))

theorem fatScanLog_inside (t : Mem) (n i : Nat) : Inside (i + n) (fatScanLog t n i).2 := by
  induction n generalizing i with
  | zero => exact inside_nil
  | succ n ih =>
    refine inside_ite (fun _ => forall_mem_singleton.mpr (by omega)) (fun _ x hx => ?_)
    rcases mem_cons.mp hx with rfl | hx
    · omega
    · have hlt := ih (i + 1) x hx
      omega

/-- Allocating and linking stay below the number of entries, truncated as it
    is: the scan does, and the last cluster came from an earlier scan. -/
theorem appendClusterLog_inside {p : Cursor} (h : Grown t entries p l) :
    Inside (u16 entries) (appendClusterLog entries p).2 := by
  have hprev : p.prevCluster ≠ 0 → p.prevCluster < u16 entries := by
    intro hne
    rcases h.ends with ⟨_, _, hz⟩ | ⟨xs, hl, _⟩
    · exact absurd hz hne
    · exact (h.fresh _ (hl ▸ mem_append_right _ mem_cons_self)).2.2
  have hscan : Inside (u16 entries) (fatScanLog p.table (u16 entries - 2) 2).2 := by
    by_cases hsmall : u16 entries ≤ 2
    · rw [Nat.sub_eq_zero_of_le hsmall]
      exact inside_nil
    · have hin := fatScanLog_inside p.table (u16 entries - 2) 2
      rwa [Nat.add_sub_cancel' (by omega)] at hin
  have halloc : Inside (u16 entries) (fatAllocLog entries p.table).2 := by
    refine inside_ite (fun _ => hscan) (fun hz => ?_)
    refine inside_append.mpr ⟨hscan, forall_mem_singleton.mpr ?_⟩
    rw [fatScanLog_fst] at hz ⊢
    rcases fatScan_cases p.table (u16 entries - 2) 2 with ⟨h0, _⟩ | ⟨_, hlt, _⟩
    · exact absurd h0 hz
    · omega
  refine inside_ite (fun _ => halloc) (fun _ => inside_append.mpr ⟨halloc, ?_⟩)
  by_cases hne : p.prevCluster ≠ 0
  · rw [if_pos hne]
    exact forall_mem_singleton.mpr (hprev hne)
  · rw [if_neg hne]
    exact inside_nil

theorem writeLoopLog_inside {b : Bpb} (fuel : Nat) {p : Cursor} {r : Logged (Cursor × Bool)}
    (hg : Grown t entries p l) (h : writeLoopLog ata b entries buf size fuel p = some r) :
    Inside (u16 entries) r.2 := by
  fun_induction writeLoopLog ata b entries buf size fuel p generalizing l r with
  | case1 => cases h
  | case2 | case3 =>
    rw [← some.inj h]
    exact appendClusterLog_inside hg
  | case4 fuel p _ q hq =>
    rename_i ih
    rcases map_eq_some_iff.mp h with ⟨r', hr', h⟩
    rw [appendClusterLog_fst] at hq
    rw [← h]
    exact inside_append.mpr ⟨appendClusterLog_inside hg,
      ih ((grown_append hg hq).1.at_disk _ _) hr'⟩
  | case5 =>
    rw [← some.inj h]
    exact inside_nil

theorem tableSector_inside (h : i < n) : Inside (256 * n) (tableSector i) := by
  intro x hx
  rw [tableSector, mem_range'_1] at hx
  omega

theorem flushSectorsLog_inside (ata : Nat → Nat → WriteOutcome) (lba : Nat) (t : Mem) (n i : Nat)
    (d : Disk) : Inside (256 * (i + n)) (flushSectorsLog ata lba t n i d).2 := by
  induction n generalizing i d with
  | zero => exact inside_nil
  | succ n ih =>
    have hhead : Inside (256 * (i + (n + 1))) (tableSector i) := tableSector_inside (by omega)
    refine inside_ite (fun _ => hhead) (fun _ => inside_append.mpr ⟨hhead, ?_⟩)
    have hrest := ih (i + 1) (writeSector ata (lba + i) (window t (512 * i)) d).1
    rwa [Nat.add_assoc, Nat.add_comm 1 n] at hrest

theorem flushCopiesLog_inside (ata : Nat → Nat → WriteOutcome) (b : Bpb) (t : Mem) (n f : Nat)
    (d : Disk) : Inside (256 * b.fatSize16) (flushCopiesLog ata b t n f d).2 := by
  induction n generalizing f d with
  | zero => exact inside_nil
  | succ n ih =>
    have hhead := flushSectorsLog_inside ata (b.firstFatSector + f * b.fatSize16) t b.fatSize16 0 d
    rw [Nat.zero_add] at hhead
    exact inside_ite (fun _ => hhead) (fun _ => inside_append.mpr ⟨hhead, ih _ _⟩)

theorem finishWriteLog_inside (ata : Nat → Nat → WriteOutcome) (i : Nat) (e : Mem) (v : Fat16) :
    Inside (256 * v.bpb.fatSize16) (finishWriteLog ata i e v).2 :=
  inside_ite (fun _ => inside_nil) (fun _ => flushCopiesLog_inside _ _ _ _ _ _)

/-- Behind the release of the old chain all accesses stay in the table. -/
theorem writeDataLog_inside {entry : Mem} {r : Logged (Fat16 × Int)}
    (he : v.fatEntries = v.bpb.fatSize16 * 512 / 2)
    (h : writeDataLog phys ata buf size i entry v = some r) : Inside v.fatEntries r.2 := by
  have hle : u16 v.fatEntries ≤ v.fatEntries := Nat.mod_le _ _
  rcases bind_eq_some_iff.mp h with ⟨k, _, h⟩
  by_cases hk : k.2 = 0
  · simp only [if_pos hk, some.injEq] at h
    rw [← h]
    exact inside_nil
  · simp only [if_neg hk] at h
    rcases bind_eq_some_iff.mp h with ⟨w, hw, h⟩
    rcases map_eq_some_iff.mp h with ⟨g, _, h⟩
    have hloop : Inside v.fatEntries w.2 := fun x hx =>
      Nat.lt_of_lt_of_le (writeLoopLog_inside _ (grown_start _ _ _) hw x hx) hle
    by_cases hok : w.1.2 = false
    · rw [if_pos hok] at h
      rw [← h]
      exact hloop
    · rw [if_neg hok] at h
      rw [← h]
      refine inside_append.mpr ⟨hloop, fun x hx => ?_⟩
      have hlt := finishWriteLog_inside _ _ _ _ x hx
      simp only at hlt
      omega

/-- The read loop ends within as many rounds as bytes remain, and stays in the
    table. -/
theorem readLoopLog_safe (v : Fat16) (hpos : 0 < v.bpb.clusterSize) (fuel : Nat)
    (hf : remaining ≤ fuel) (c offset : Nat) (cbuf buf : Mem) :
    ∃ r, v.readLoopLog fuel remaining c offset cbuf buf = some r ∧ Inside v.fatEntries r.2 := by
  fun_induction readLoopLog v fuel remaining c offset cbuf buf with
  | case1 => omega
  | case2 | case4 => exact ⟨_, rfl, inside_nil⟩
  | case3 fuel remaining c offset cbuf buf hgo ih =>
    rw [readCluster, if_neg (Nat.not_lt.mpr hgo.2.1), bind_some]
    -- A round takes at least one byte.
    rcases ih _ (by omega) with ⟨r, hr, hin⟩
    refine ⟨_, by rw [hr, map_some], inside_append.mpr ⟨?_, hin⟩⟩
    exact fatNextLog_inside _ _ _

/-! ### The release of a chain -/

/-- The cluster after `n` links. -/
def links (t : Mem) (entries c : Nat) (n : Nat) : Nat := (fatNext t entries)^[n] c

theorem links_succ (t : Mem) (entries c n : Nat) :
    links t entries c (n + 1) = fatNext t entries (links t entries c n) :=
  iterate_succ_apply' _ _ _

theorem links_add (t : Mem) (entries c m n : Nat) :
    links t entries c (m + n) = links t entries (links t entries c n) m :=
  iterate_add_apply _ _ _ _

/-- The walk from `c` comes to no cluster outside of the table. -/
def ChainInside (t : Mem) (entries c : Nat) : Prop :=
  ∀ n, (∀ m, m ≤ n → IsCluster (links t entries c m)) → links t entries c n < entries

/-- Releasing walks the links of the table `t0` that it started with, until it
    comes to a cleared entry. -/
theorem freeChainLog_inside (hin : ChainInside t0 entries c0) (fuel : Nat)
    (ht : ∀ x, fatAt t x = fatAt t0 x ∨ fatAt t x = 0)
    (hc : IsCluster c → ∃ k, c = links t0 entries c0 k ∧
      ∀ m, m ≤ k → IsCluster (links t0 entries c0 m)) (h : freeChainLog entries fuel t c = some r) :
    Inside entries r.2 := by
  fun_induction freeChainLog entries fuel t c generalizing r with
  | case1 => cases h
  | case2 fuel t c hcl ih =>
    rcases map_eq_some_iff.mp h with ⟨r', hr', h⟩
    rcases hc hcl with ⟨k, hk, hall⟩
    have hlt : c < entries := hk ▸ hin k hall
    have hlog : (fatNextLog t entries c).1 = fatAt t c := by
      rw [fatNextLog_fst, fatNext_inside hlt]
    rw [← h]
    refine inside_append.mpr ⟨fatNextLog_inside _ _ _, forall_mem_cons.mpr ⟨hlt, ?_⟩⟩
    refine ih (fun x => ?_) (fun hnext => ?_) hr'
    · by_cases hxc : x = c
      · rw [hxc, fatAt_setFat_self]
        exact Or.inr rfl
      · rw [fatAt_setFat_ne hxc]
        exact ht x
    · rw [hlog] at hnext ⊢
      -- A cluster is no cleared entry, so the link is the old one.
      have hold : fatAt t c = fatAt t0 c := by
        rcases ht c with hold | hzero
        · exact hold
        · rw [hzero] at hnext
          exact absurd hnext.1 (by decide)
      have hstep : links t0 entries c0 (k + 1) = fatAt t c := by
        rw [links_succ, ← hk, fatNext_inside hlt, hold]
      refine ⟨k + 1, hstep.symm, fun m hm => ?_⟩
      by_cases hmk : m = k + 1
      · rw [hmk, hstep]
        exact hnext
      · exact hall m (by omega)
  | case3 =>
    rw [← some.inj h]
    exact inside_nil

/-- A walk that does not meet itself is followed to its end. -/
theorem freeChainLog_visits (hcl : ∀ m, m ≤ n → IsCluster (links t0 entries c0 m))
    (hin : ∀ m, m < n → links t0 entries c0 m < entries)
    (hinj : ∀ i j, i < j → j ≤ n → links t0 entries c0 i ≠ links t0 entries c0 j) (fuel : Nat)
    {k : Nat} (hk : k ≤ n)
    (ht : ∀ x, (∀ i, i < k → links t0 entries c0 i ≠ x) → fatAt t x = fatAt t0 x)
    (h : freeChainLog entries fuel t (links t0 entries c0 k) = some r) :
    links t0 entries c0 n ∈ r.2 := by
  induction fuel generalizing t k r with
  | zero => cases h
  | succ fuel ih =>
    rw [freeChainLog, if_pos (hcl k hk)] at h
    rcases map_eq_some_iff.mp h with ⟨r', hr', h⟩
    rw [← h]
    refine mem_append_right _ ?_
    by_cases hkn : k = n
    · rw [hkn]
      exact mem_cons_self
    · refine mem_cons_of_mem _ (ih (show k + 1 ≤ n by omega)
        (t := setFat t (links t0 entries c0 k) 0) (fun x hx => ?_) ?_)
      · have hxk : x ≠ links t0 entries c0 k := (hx k (by omega)).symm
        rw [fatAt_setFat_ne hxk]
        exact ht x (fun i hi => hx i (by omega))
      · have hlt := hin k (by omega)
        rw [fatNextLog_fst, fatNext_inside hlt,
          ht _ (fun i hi => hinj i k hi hk)] at hr'
        rw [links_succ, fatNext_inside hlt]
        exact hr'

/-- The release of a chain stays in the table exactly if the walk along its
    links does. -/
theorem freeChainLog_inside_iff {fuel : Nat} (h : freeChainLog entries fuel t c = some r) :
    Inside entries r.2 ↔ ChainInside t entries c := by
  constructor
  · intro hlog
    by_contra hout
    -- The first place outside is reached without a repetition.
    have hex : ∃ n, (∀ m, m ≤ n → IsCluster (links t entries c m)) ∧
        entries ≤ links t entries c n := by
      simp only [ChainInside, not_forall, Nat.not_lt] at hout
      rcases hout with ⟨n, hall, hge⟩
      exact ⟨n, hall, hge⟩
    classical
    obtain ⟨n, ⟨hcl, hge⟩, hmin⟩ : ∃ n, ((∀ m, m ≤ n → IsCluster (links t entries c m)) ∧
        entries ≤ links t entries c n) ∧ ∀ m, m < n → links t entries c m < entries := by
      refine ⟨Nat.find hex, Nat.find_spec hex, fun m hm => ?_⟩
      by_contra hbad
      refine Nat.find_min hex hm ⟨fun i hi => ?_, Nat.le_of_not_lt hbad⟩
      exact (Nat.find_spec hex).1 i (by omega)
    have hinj : ∀ i j, i < j → j ≤ n → links t entries c i ≠ links t entries c j := by
      intro i j hij hj heq
      have hsame : links t entries c n = links t entries c (n - j + i) := by
        rw [links_add, heq, ← links_add, Nat.sub_add_cancel hj]
      have hlt := hmin (n - j + i) (by omega)
      omega
    have hmem := freeChainLog_visits hcl hmin hinj fuel (Nat.zero_le n) (fun x _ => rfl) h
    have hlt := hlog _ hmem
    omega
  · intro hin
    refine freeChainLog_inside hin fuel (fun x => Or.inl rfl) (fun hc => ⟨0, rfl, fun m hm => ?_⟩) h
    rw [Nat.le_zero.mp hm]
    exact hc

/-- A sound chain is walked inside of the table. -/
theorem FileChain.inside (h : FileChain t entries c l) : ChainInside t entries c := by
  induction l generalizing c with
  | nil => exact fun n hall => absurd (hall 0 (Nat.zero_le n)) h.chain
  | cons x l ih =>
    rcases h.chain with ⟨_, rfl, _⟩
    have hlt := h.inRange x mem_cons_self
    have hshift : ∀ m, links t entries x (m + 1) = links t entries (fatAt t x) m := by
      intro m
      rw [links_add, show links t entries x 1 = fatAt t x from fatNext_inside hlt]
    intro n hall
    cases n with
    | zero => exact hlt
    | succ n =>
      rw [hshift]
      refine ih h.tail n (fun m hm => ?_)
      rw [← hshift]
      exact hall (m + 1) (by omega)

/-! ### The calls -/

/-- The call comes back, and has touched only entries of the table. -/
def Safe {α : Type} (entries : Nat) (o : Option (Logged α)) : Prop :=
  ∃ r, o = some r ∧ Inside entries r.2

theorem readFileLog_safe {a : Blocks} (hrep : HeapRep v.heap a) (phys : Nat → Nat)
    (name : List UInt8) (buf : Mem) (maxSize : Nat) :
    Safe v.fatEntries (v.readFileLog phys name buf maxSize) := by
  rw [readFileLog]
  by_cases hr : v.ready = false
  · rw [if_pos hr]
    exact ⟨_, rfl, inside_nil⟩
  · rw [if_neg hr]
    cases findRootEntry v.bpb v.disk (nameTo83 name) with
    | none => exact ⟨_, rfl, inside_nil⟩
    | some i =>
      simp only
      by_cases hz : fileSizeOf (readRootEntry v.bpb v.disk i) = 0
      · rw [if_pos hz]
        exact ⟨_, rfl, inside_nil⟩
      · rw [if_neg hz]
        rcases Heap.kmalloc_refines hrep phys v.bpb.clusterSize with ⟨h1, hk, _⟩
        rw [hk, bind_some]
        by_cases hp : (a.alloc phys v.bpb.clusterSize).2 = 0
        · simp only [if_pos hp]
          exact ⟨_, rfl, inside_nil⟩
        · rcases Heap.kmalloc_kfree hrep hp with ⟨g1, g2, hk', hfree, _⟩
          have hpos := Buffer.pos ⟨g1, _, g2, hk', hp, hfree⟩
          rw [hk, some.injEq, Prod.mk.injEq] at hk'
          rw [← hk'.1] at hfree
          rcases readLoopLog_safe v hpos
            (min (fileSizeOf (readRootEntry v.bpb v.disk i)) maxSize) (Nat.le_refl _)
            (firstClusterOf (readRootEntry v.bpb v.disk i)) 0
            (window h1.mem (a.alloc phys v.bpb.clusterSize).2) buf with ⟨r, hloop, hin⟩
          simp only [if_neg hp, hloop, bind_some, hfree, map_some]
          exact ⟨_, rfl, hin⟩

/-- `read_file` and `write_file` come back and stay in the cached table,
    exactly if the walk from the first cluster of an existing file does. -/
theorem fat_accesses_iff {v : Fat16} {s : Heap.Session} (hm : Mounted v)
    (hs : Heap.sessions.Reachable s) (hheap : v.heap = s.heap) (phys : Nat → Nat)
    (ata : Nat → Nat → WriteOutcome) (name : List UInt8) (dst buf : Mem) (maxSize size : Nat) :
    (Safe v.fatEntries (v.readFileLog phys name dst maxSize) ∧
        Safe v.fatEntries (v.writeFileLog phys ata name buf size)) ↔
      ∀ i, findRootEntry v.bpb v.disk (nameTo83 name) = some i →
        ChainInside v.fatTable v.fatEntries (firstClusterOf (readRootEntry v.bpb v.disk i)) := by
  rcases Heap.rep_reachable hs with ⟨a, hrep⟩
  have hrep' : HeapRep v.heap a := hheap ▸ hrep.heap
  have hread := readFileLog_safe hrep' phys name dst maxSize
  rcases writeFile_returns hrep' phys ata name buf size with ⟨w, hw⟩
  rw [← writeFileLog_fst] at hw
  rcases map_eq_some_iff.mp hw with ⟨r, hr, _⟩
  have hsafe : (Safe v.fatEntries (v.readFileLog phys name dst maxSize) ∧
      Safe v.fatEntries (v.writeFileLog phys ata name buf size)) ↔ Inside v.fatEntries r.2 := by
    refine ⟨fun h => ?_, fun h => ⟨hread, r, hr, h⟩⟩
    rcases h.2 with ⟨r', hr', hin⟩
    rw [hr, some.injEq] at hr'
    exact hr' ▸ hin
  rw [hsafe]
  rw [writeFileLog, if_neg (by rw [hm.ready]; exact Bool.noConfusion)] at hr
  cases hfind : findRootEntry v.bpb v.disk (nameTo83 name) with
  | some i =>
    simp only [hfind] at hr
    rcases bind_eq_some_iff.mp hr with ⟨t, ht, hr⟩
    rcases map_eq_some_iff.mp hr with ⟨d, hd, hr⟩
    have hdata : Inside v.fatEntries d.2 :=
      writeDataLog_inside (v := { v with fatTable := t.1 }) hm.entries hd
    rw [← hr, inside_append, freeChainLog_inside_iff ht]
    simp only [some.injEq, forall_eq']
    exact ⟨fun h => h.1, fun h => ⟨h, hdata⟩⟩
  | none =>
    have hall : Inside v.fatEntries r.2 := by
      simp only [hfind] at hr
      cases hfree : findFreeRootEntry v.bpb v.disk with
      | none =>
        simp only [hfree, some.injEq] at hr
        rw [← hr]
        exact inside_nil
      | some i =>
        simp only [hfree] at hr
        exact writeDataLog_inside hm.entries hr
    exact ⟨fun _ i hi => (nomatch hi), fun _ => hall⟩

/-- The file of the small volume is read and overwritten inside of the
    table. -/
theorem fat_accesses_sample :
    ∃ h, Safe (sample h).fatEntries ((sample h).readFileLog samplePhys [0x42] (fun _ => 0) 3) ∧
      Safe (sample h).fatEntries
        ((sample h).writeFileLog samplePhys (fun _ _ => .ok) [0x42] (fun _ => 7) 5) := by
  have hinit : (Heap.init samplePhys (fun _ => 0)).isSome = true := by decide
  rcases Option.isSome_iff_exists.mp hinit with ⟨h, hi⟩
  have hreach := Heap.reachable_init hi
  refine ⟨h, (fat_accesses_iff (mounted_sample h) hreach rfl samplePhys _ _ _ _ 3 5).mpr ?_⟩
  intro i hfind
  rw [lists_sample h (findRootEntry_some.mp hfind).1]
  exact (chain_sample h).inside

/-- A disk whose file `B` starts at cluster 300, in a table of 256 entries. -/
def wildDisk : Disk where
  sector := fun l =>
    if l = 0 then sampleBoot
    else if l = 1 then sampleTable
    else if l = 2 then copy (fun _ => 0) 0 (filled (newEntry (nameTo83 [0x42])) 300 3) 32
    else fun _ => 0
  writes := 0

/-- Overwriting the file clears the entry 300, behind the end of the table. -/
theorem fat_access_outside :
    (Heap.init samplePhys (fun _ => 0)).map (fun h =>
        ((sample h).fatEntries, (writeFileLog samplePhys (fun _ _ => .ok) [0x42] (fun _ => 7) 5
          { sample h with disk := wildDisk }).map (fun r => (r.1.2, decide (300 ∈ r.2))))) =
      some (256, some (0, true)) := by
  decide

end SysRust.Fat16
