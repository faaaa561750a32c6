import SysRust.Theory.Pmm.Counter

/-!
# What the Memory Map Makes Available

`init` frees the pages of the available regions of the memory map. At its end
a region is rounded down, so that a page is only freed if it ends inside the
region. Its beginning is rounded down as well: the page a region begins in is
freed even if its first bytes are in front of the region. These bytes may
belong to the firmware.

A page can be handed out if and only if its bit is clear after `init`: as
long as it is clear, allocating goes on to free pages, and there are finitely
many of them. So the law that only available memory is handed out comes down
to the first pages of the regions.

## Main definitions

* `regionOf`, `InUnion`: The available regions, with all 64 bits of their
  bases and lengths.
* `holders`: The runs of allocations, frees and reservations behind `init`.
* `Returns`: A page is returned in one of them.
* `FirstPages`: The first pages of the regions that are no firmware.

## Theorems

* `clear_iff`: Which pages are free after `init`.
* `returns_iff`: Which pages are returned in some run.
* `alloc_available_iff`: Only available memory is handed out if and only if
  the first pages are available.
-/

namespace SysRust.Pmm

open List

/-! ### The map -/

/-- The entry at `a` describes available memory. -/
def Available (m : Mem) (a : Nat) : Prop := (mmapEntry m a).entryType = 1

/-- The region of the entry at `a`: where it begins and where it ends. The
    high word of the length, which `init` does not read, counts. -/
def regionOf (m : Mem) (a : Nat) : Nat × Nat :=
  let base := (mmapEntry m a).baseLow + 2 ^ 32 * (mmapEntry m a).baseHigh
  (base, base + ((mmapEntry m a).lengthLow + 2 ^ 32 * load m (a + 16) 4))

/-- The byte at `x` is in an available region of the map. -/
def InUnion (m : Mem) (as : List Nat) (x : Nat) : Prop :=
  ∃ a ∈ as, Available m a ∧ (regionOf m a).1 ≤ x ∧ x < (regionOf m a).2

variable {m : Mem} {kernelEnd j : Nat} {p : Pmm} {mb : MultibootInfo}

/-! ### The bits after `init` -/

theorem test_foldl_releasePage (pages : List Nat) (s : Pmm) (j : Nat) :
    bitmapTest j (pages.foldl releasePage s) = true ↔ bitmapTest j s = true ∧ j ∉ pages := by
  induction pages generalizing s with
  | nil => simp only [foldl_nil, not_mem_nil, not_false_eq_true, and_true]
  | cons p pages ih =>
    rw [foldl_cons, ih, bitmapTest_releasePage, mem_cons, not_or, and_assoc]

/-- The page `j` is freed for the entry: its region begins in the page or in
    front of it, and ends behind it. -/
def Frees (e : MmapEntry) (j : Nat) : Prop :=
  e.entryType = 1 ∧ e.baseHigh = 0 ∧ e.baseLow / PAGE_SIZE ≤ j ∧
    j < min (e.baseLow + e.lengthLow) (MAX_PAGES * PAGE_SIZE) / PAGE_SIZE

theorem bitmapTest_addEntry {e : MmapEntry} (hb : e.baseLow < 2 ^ 32) (s : Pmm) (j : Nat) :
    bitmapTest j (addEntry e s) = true ↔ bitmapTest j s = true ∧ ¬ Frees e j := by
  unfold addEntry
  by_cases ha : e.entryType = 1 ∧ e.baseHigh = 0
  · rw [if_pos ha]
    by_cases hlt : e.baseLow < min (e.baseLow + e.lengthLow) (MAX_PAGES * PAGE_SIZE)
    · simp only [if_pos hlt]
      rw [markRegionFree, test_foldl_releasePage, mem_pageRange]
      refine and_congr_right (fun _ => not_congr ?_)
      simp only [Frees, ha.1, ha.2, true_and, u32, u64, PAGE_SIZE, MAX_PAGES] at hlt ⊢
      omega
    · simp only [if_neg hlt]
      refine ⟨fun h => ⟨h, fun hf => ?_⟩, fun h => h.1⟩
      rcases hf with ⟨_, _, h1, h2⟩
      simp only [PAGE_SIZE, MAX_PAGES] at h1 h2 hlt
      omega
  · rw [if_neg ha]
    exact ⟨fun h => ⟨h, fun hf => ha ⟨hf.1, hf.2.1⟩⟩, fun h => h.1⟩

theorem bitmapTest_entries (m : Mem) (as : List Nat) (s : Pmm) (j : Nat) :
    bitmapTest j (as.foldl (fun s a => addEntry (mmapEntry m a) s) s) = true ↔
      bitmapTest j s = true ∧ ∀ a ∈ as, ¬ Frees (mmapEntry m a) j := by
  induction as generalizing s with
  | nil => simp only [foldl_nil, not_mem_nil, IsEmpty.forall_iff, implies_true, and_true]
  | cons a as ih =>
    have hb : (mmapEntry m a).baseLow < 2 ^ 32 := load_lt m (a + 4) 4
    rw [foldl_cons, ih, bitmapTest_addEntry hb, forall_mem_cons, and_assoc]

/-- After `init` a page is free if it is freed for an entry of the map and
    lies behind the kernel. -/
theorem clear_iff {fuel : Nat} (h : init fuel kernelEnd m mb = some p) (hlo : 0x100000 ≤ kernelEnd)
    (hhi : kernelEnd ≤ 2 ^ 32) (j : Nat) :
    bitmapTest j p = false ↔
      kernelEnd ≤ j * PAGE_SIZE ∧ ∃ a ∈ mapEntries fuel m mb, Frees (mmapEntry m a) j := by
  rw [init_eq h, ← Bool.not_eq_true, bitmapTest_recordTotal, bitmapTest_reserveKernel hlo hhi,
    bitmapTest_entries, not_or, not_and, Nat.not_lt, and_comm]
  refine and_congr_right (fun _ => ⟨fun hn => ?_, ?_⟩)
  · by_contra hnone
    exact hn (bitmapTest_full 0 0 j) (fun a ha hf => hnone ⟨a, ha, hf⟩)
  · rintro ⟨a, ha, hf⟩ - hall
    exact hall a ha hf

/-! ### Runs behind `init` -/

/-- The allocator and the pages its clients hold. -/
structure Held where
  pmm : Pmm
  outstanding : List Nat

inductive Use where
  | allocPage
  | freePage (addr : Nat)
  | reserveRange (start stop : Nat)

/-- Clients free only pages they hold. -/
def UseAllowed (s : Held) : Use → Prop
  | .freePage addr => addr ∈ s.outstanding
  | _ => True

def serveUse (s : Held) : Use → Option Held
  | .allocPage =>
    let r := Pmm.allocPage s.pmm
    some { pmm := r.1
           outstanding := if r.2 = 0 then s.outstanding else r.2 :: s.outstanding }
  | .freePage addr =>
    some { pmm := Pmm.freePage addr s.pmm, outstanding := s.outstanding.erase addr }
  | .reserveRange start stop => some { s with pmm := Pmm.reserveRange start stop s.pmm }

/-- All runs behind an `init` that has left `p`. -/
def holders (p : Pmm) : Machine Held Use where
  start := fun s => s = { pmm := p, outstanding := [] }
  allows := UseAllowed
  exec := serveUse

/-- Some run comes to a state where `alloc_page` returns the page `j`. -/
def Returns (p : Pmm) (j : Nat) : Prop :=
  ∃ s, (holders p).Reachable s ∧ (allocPage s.pmm).2 = j * PAGE_SIZE ∧ (allocPage s.pmm).2 ≠ 0

/-- Free and held are only pages that were free at first. -/
structure Within (p : Pmm) (s : Held) : Prop where
  clear : ∀ j, j < MAX_PAGES → bitmapTest j s.pmm = false → bitmapTest j p = false
  held : ∀ a ∈ s.outstanding, ∃ j, j < MAX_PAGES ∧ a = j * PAGE_SIZE ∧ bitmapTest j p = false

variable {s t : Held}

theorem within_allocPage (h : Within p s) (he : serveUse s .allocPage = some t) : Within p t := by
  rw [serveUse, Option.some.injEq] at he
  rcases allocPage_cases s.pmm with ⟨page, hmax, hclear, halloc⟩ | ⟨halloc, _⟩
  · rw [← he, halloc]
    refine ⟨fun j hj hc => h.clear j hj ?_, fun a ha => ?_⟩
    · rw [← Bool.not_eq_true] at hc ⊢
      exact fun hset => hc ((bitmapTest_takePage s.pmm page j).mpr (Or.inl hset))
    · dsimp only at ha
      split_ifs at ha
      · exact h.held a ha
      · rcases mem_cons.mp ha with rfl | ha
        · exact ⟨page, hmax, rfl, h.clear page hmax hclear⟩
        · exact h.held a ha
  · rw [← he, halloc]
    exact ⟨h.clear, fun a ha => h.held a (by simpa only [if_true] using ha)⟩

theorem within_freePage (h : Within p s) {addr : Nat} (ha : addr ∈ s.outstanding) :
    Within p { pmm := freePage addr s.pmm, outstanding := s.outstanding.erase addr } := by
  rcases h.held addr ha with ⟨page, hmax, rfl, hfree⟩
  refine ⟨fun j hj hc => ?_, fun b hb => h.held b (mem_of_mem_erase hb)⟩
  by_cases hjp : j = page
  · exact hjp ▸ hfree
  refine h.clear j hj ?_
  by_cases h0 : page = 0
  · rwa [h0, Nat.zero_mul, freePage, if_pos rfl] at hc
  · rw [freePage_eq h0 hmax, ← Bool.not_eq_true, bitmapTest_releasePage] at hc
    rw [← Bool.not_eq_true]
    exact fun hset => hc ⟨hset, hjp⟩

theorem within_serve {o : Use} (h : Within p s) (ho : UseAllowed s o) (he : serveUse s o = some t) :
    Within p t := by
  cases o with
  | allocPage => exact within_allocPage h he
  | freePage addr =>
    rw [serveUse, Option.some.injEq] at he
    exact he ▸ within_freePage h ho
  | reserveRange start stop =>
    rw [serveUse, Option.some.injEq] at he
    rw [← he]
    refine ⟨fun j hj hc => h.clear j hj ?_, h.held⟩
    rw [← Bool.not_eq_true] at hc ⊢
    exact fun hset => hc (reserveRange_mono start stop hset)

theorem within_reachable (hs : (holders p).Reachable s) : Within p s := by
  refine Machine.Reachable.invariant (Within p) (fun s h => ?_)
    (fun _ _ _ h ho he => within_serve h ho he) hs
  rw [show s = { pmm := p, outstanding := [] } from h]
  exact ⟨fun _ _ hc => hc, forall_mem_nil _⟩

/-- A free page is returned in the end: allocating takes the pages one by
    one, and there are only `n` of them. -/
theorem returns_of_clear (hj : j < MAX_PAGES) (hne : j ≠ 0) (n : Nat) (hs : (holders p).Reachable s)
    (hc : bitmapTest j s.pmm = false) (hn : (s.pmm.bitmap.absent MAX_PAGES).card ≤ n) :
    Returns p j := by
  induction n generalizing s with
  | zero =>
    have hmem : j ∈ s.pmm.bitmap.absent MAX_PAGES := Bitmap.mem_absent.mpr ⟨hj, hc⟩
    rw [Finset.card_eq_zero.mp (Nat.le_zero.mp hn)] at hmem
    exact absurd hmem (Finset.notMem_empty j)
  | succ n ih =>
    rcases allocPage_cases s.pmm with ⟨page, hmax, hclear, halloc⟩ | ⟨_, hall⟩
    · by_cases hjp : j = page
      · refine ⟨s, hs, by rw [halloc, hjp], ?_⟩
        rw [halloc, ← hjp]
        simp only [PAGE_SIZE]
        omega
      · -- Another page is taken, and one free page less is left.
        have hnext := Machine.Reachable.step s _ Use.allocPage hs trivial rfl
        rw [halloc] at hnext
        refine ih hnext ?_ ?_
        · show bitmapTest j (takePage s.pmm page) = false
          rw [← Bool.not_eq_true, bitmapTest_takePage, hc]
          exact not_or.mpr ⟨Bool.false_ne_true, hjp⟩
        · show ((takePage s.pmm page).bitmap.absent MAX_PAGES).card ≤ n
          have hmem : page ∈ s.pmm.bitmap.absent MAX_PAGES :=
            Bitmap.mem_absent.mpr ⟨hmax, hclear⟩
          have hset : (bitmapSet page s.pmm).bitmap.absent MAX_PAGES =
              (s.pmm.bitmap.absent MAX_PAGES).erase page :=
            Bitmap.absent_set _ page MAX_PAGES (Nat.zero_lt_succ 31)
          rw [takePage, if_pos hclear, hset, Finset.card_erase_of_mem hmem]
          omega
    · rw [hall j hj] at hc
      exact Bool.noConfusion hc

/-- The pages that are returned in some run are those that are free after
    `init`. -/
theorem returns_iff (hne : bitmapTest 0 p = true) :
    Returns p j ↔ j < MAX_PAGES ∧ bitmapTest j p = false := by
  constructor
  · rintro ⟨s, hs, hret, h0⟩
    have hw := within_reachable hs
    rcases allocPage_cases s.pmm with ⟨page, hmax, hclear, halloc⟩ | ⟨halloc, _⟩
    · have hpage : page = j := by
        rw [halloc] at hret
        simp only [PAGE_SIZE] at hret
        omega
      exact hpage ▸ ⟨hmax, hw.clear page hmax hclear⟩
    · rw [halloc] at h0
      exact absurd rfl h0
  · rintro ⟨hj, hc⟩
    have hj0 : j ≠ 0 := by
      intro h0
      rw [h0, hne] at hc
      exact Bool.noConfusion hc
    exact returns_of_clear hj hj0 _ (Machine.Reachable.start _ rfl) hc (Nat.le_refl _)

/-! ### The law -/

/-- For every available region that ends behind the page it begins in, if
    this page lies behind the kernel, the bytes of the page in front of the
    region are available as well. -/
def FirstPages (kernelEnd : Nat) (m : Mem) (as : List Nat) : Prop :=
  ∀ a ∈ as, ∀ e, e = mmapEntry m a → e.entryType = 1 → e.baseHigh = 0 →
    e.baseLow / PAGE_SIZE < min (e.baseLow + e.lengthLow) (MAX_PAGES * PAGE_SIZE) / PAGE_SIZE →
    kernelEnd ≤ e.baseLow / PAGE_SIZE * PAGE_SIZE →
    ∀ x, e.baseLow / PAGE_SIZE * PAGE_SIZE ≤ x → x < e.baseLow → InUnion m as x

/-- A page that is freed for an entry is available from the beginning of the
    region on. -/
theorem inUnion_of_frees {as : List Nat} {a x : Nat} (ha : a ∈ as) (hf : Frees (mmapEntry m a) j)
    (hlo : (mmapEntry m a).baseLow ≤ x) (hx : x < (j + 1) * PAGE_SIZE) : InUnion m as x := by
  rcases hf with ⟨htype, hhigh, _, hj⟩
  refine ⟨a, ha, htype, ?_, ?_⟩
  · simp only [regionOf, hhigh]
    omega
  · simp only [regionOf, hhigh, PAGE_SIZE, MAX_PAGES] at hj hx ⊢
    omega

/-- Every page that `alloc_page` can return after `init` lies inside the
    available regions of the map, if and only if the first pages of the
    regions do. -/
theorem alloc_available_iff {fuel kernelEnd : Nat} {m : Mem} {mb : MultibootInfo} {p : Pmm}
    (h : init fuel kernelEnd m mb = some p) (hlo : 0x100000 ≤ kernelEnd)
    (hhi : kernelEnd ≤ 2 ^ 32) :
    (∀ j, Returns p j → ∀ x, j * PAGE_SIZE ≤ x → x < (j + 1) * PAGE_SIZE →
      InUnion m (mapEntries fuel m mb) x) ↔ FirstPages kernelEnd m (mapEntries fuel m mb) := by
  have hzero : bitmapTest 0 p = true :=
    init_covers h hlo hhi ⟨0, by omega, Nat.zero_lt_succ _, le_refl _, by omega⟩
  constructor
  · rintro hall a ha e rfl htype hhigh hends hbehind x hx1 hx2
    have hmax : (mmapEntry m a).baseLow / PAGE_SIZE < MAX_PAGES := by
      simp only [PAGE_SIZE, MAX_PAGES] at hends ⊢
      omega
    have hfree : bitmapTest ((mmapEntry m a).baseLow / PAGE_SIZE) p = false :=
      (clear_iff h hlo hhi _).mpr ⟨hbehind, a, ha, htype, hhigh, le_refl _, hends⟩
    refine hall _ ((returns_iff hzero).mpr ⟨hmax, hfree⟩) x hx1 ?_
    simp only [PAGE_SIZE] at hx1 hx2 ⊢
    omega
  · intro hfirst j hret x hx1 hx2
    rcases (returns_iff hzero).mp hret with ⟨_, hfree⟩
    rcases (clear_iff h hlo hhi j).mp hfree with ⟨hbehind, a, ha, hf⟩
    by_cases hbase : (mmapEntry m a).baseLow ≤ x
    · exact inUnion_of_frees ha hf hbase hx2
    · -- In front of the region only the first page has bytes that are freed.
      have hj : (mmapEntry m a).baseLow / PAGE_SIZE = j := by
        have h1 := hf.2.2.1
        simp only [PAGE_SIZE] at h1 hx1 ⊢
        omega
      refine hfirst a ha _ rfl hf.1 hf.2.1 (hj ▸ hf.2.2.2) (hj ▸ hbehind) x (hj ▸ hx1) ?_
      omega

/-- A map with one available region, which begins in the middle of a page. -/
def halfPage : Mem :=
  store (store (store (store (fun _ => 0) 0x9000 4 20) 0x9004 4 0x200800) 0x900C 4 0x2000)
    0x9014 4 1

/-- The page at 2 MB is returned, although the region begins 2 KB behind it. -/
theorem alloc_unavailable :
    ∃ p, init 2 0x101000 halfPage { flags := 64#32, mmapLength := 24, mmapAddr := 0x9000 } =
        some p ∧
      Returns p 0x200 ∧ ¬ InUnion halfPage
        (mapEntries 2 halfPage { flags := 64#32, mmapLength := 24, mmapAddr := 0x9000 })
        0x200000 := by
  have hbit : (init 2 0x101000 halfPage
      { flags := 64#32, mmapLength := 24, mmapAddr := 0x9000 }).map (fun p =>
        (bitmapTest 0 p, bitmapTest 0x200 p)) = some (true, false) := by
    decide +kernel
  rcases Option.map_eq_some_iff.mp hbit with ⟨p, hp, hbits⟩
  rw [Prod.mk.injEq] at hbits
  refine ⟨p, hp, (returns_iff hbits.1).mpr ⟨by simp only [MAX_PAGES]; omega, hbits.2⟩, ?_⟩
  have hentries : mapEntries 2 halfPage
      { flags := 64#32, mmapLength := 24, mmapAddr := 0x9000 } = [0x9000] := by
    decide
  rintro ⟨a, ha, _, hbase, _⟩
  rw [mem_singleton.mp ha] at hbase
  exact absurd hbase (by decide)

/-- The pages of a region that begins at a page boundary are available. -/
theorem alloc_available_threePages :
    ∃ p, init 2 0x101000 threePages { flags := 64#32, mmapLength := 24, mmapAddr := 0x9000 } =
        some p ∧
      Returns p 0x102 ∧ ∀ x, 0x102 * PAGE_SIZE ≤ x → x < 0x103 * PAGE_SIZE →
        InUnion threePages
          (mapEntries 2 threePages { flags := 64#32, mmapLength := 24, mmapAddr := 0x9000 }) x := by
  have hbit : (init 2 0x101000 threePages
      { flags := 64#32, mmapLength := 24, mmapAddr := 0x9000 }).map (fun p =>
        (bitmapTest 0 p, bitmapTest 0x102 p)) = some (true, false) := by
    decide +kernel
  rcases Option.map_eq_some_iff.mp hbit with ⟨p, hp, hbits⟩
  rw [Prod.mk.injEq] at hbits
  have hret : Returns p 0x102 :=
    (returns_iff hbits.1).mpr ⟨by simp only [MAX_PAGES]; omega, hbits.2⟩
  have hfirst : FirstPages 0x101000 threePages
      (mapEntries 2 threePages { flags := 64#32, mmapLength := 24, mmapAddr := 0x9000 }) := by
    have hentries : mapEntries 2 threePages
        { flags := 64#32, mmapLength := 24, mmapAddr := 0x9000 } = [0x9000] := by
      decide
    rintro a ha e he - - - hbehind x - -
    rw [mem_singleton.mp ha] at he
    have hbase : e.baseLow = 0x100000 := by rw [he]; decide
    rw [hbase] at hbehind
    exact absurd hbehind (by decide)
  exact ⟨p, hp, hret, (alloc_available_iff hp (by omega) (by omega)).mpr hfirst 0x102 hret⟩

end SysRust.Pmm
