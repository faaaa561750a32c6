import SysRust.Core.Pmm
import SysRust.Lib.Machine

/-!
# Runs of the Page Allocator

The page allocator never hands out a page that is outstanding or reserved.
Everything follows from what the operations do to one bit: reserving a range
sets the bits of the pages that meet it, allocation sets a bit that was
clear, and freeing clears the bit of a page that was handed out.

A session records what the clients know: the pages they hold, the ranges
they reserved and where the kernel image ends. The invariant is that the
bits of all these pages are set, and that no page held is a protected one.
The last part is what makes freeing harmless: it can only clear the bit of
a page that nothing protects.

## Main definitions

* `Overlaps`: A page meets an address range.
* `mapOffsets`, `mapEntries`: The entries of the map, as the walk sees them.
* `Session`, `Request`, `sessions`: The allocator with its clients.
* `Protected`: The pages that may never be handed out.
* `Inv`: The invariant of a session.

## Theorems

* `test_foldl_takePage`: The bits after reserving a list of pages.
* `reserveRange_covers`: Reserving a range sets the bit of every page that
  meets it.
* `walkMmap_eq`, `init_eq`: The entries are added one after the other.
* `allocPage_cases`: What an allocation does.
* `inv_start`, `inv_step`: The invariant holds and is kept.
* `allocPage_sound`: No page is handed out twice and none that is protected.
-/

namespace SysRust.Pmm

open List

/-! ### Bits under the operations -/

theorem bitmapTest_takePage (s : Pmm) (page j : Nat) :
    bitmapTest j (takePage s page) = true ↔ bitmapTest j s = true ∨ j = page := by
  unfold takePage
  by_cases h : bitmapTest page s = false
  · rw [if_pos h]
    exact Bitmap.test_set s.bitmap page j (Nat.zero_lt_succ 31)
  · rw [if_neg h]
    rw [Bool.not_eq_false] at h
    constructor
    · exact Or.inl
    · rintro (hj | rfl)
      · exact hj
      · exact h

theorem bitmapTest_releasePage (s : Pmm) (page j : Nat) :
    bitmapTest j (releasePage s page) = true ↔ bitmapTest j s = true ∧ j ≠ page := by
  unfold releasePage
  by_cases h : bitmapTest page s = true
  · rw [if_pos h]
    exact Bitmap.test_clear s.bitmap page j (Nat.zero_lt_succ 31)
  · rw [if_neg h]
    refine ⟨fun hj => ⟨hj, fun hjp => h (hjp ▸ hj)⟩, fun hj => hj.1⟩

theorem bitmapTest_full (n free : BitVec 32) (j : Nat) :
    bitmapTest j { bitmap := fun _ => BitVec.allOnes 32, totalPages := n, freePages := free } =
      true := by
  refine (Bitmap.test_iff _ _ (Nat.zero_lt_succ 31)).mpr ?_
  rw [BitVec.getLsbD_allOnes]
  exact decide_eq_true (Nat.mod_lt j (Nat.zero_lt_succ 31))

theorem test_foldl_takePage (pages : List Nat) (s : Pmm) (j : Nat) :
    bitmapTest j (pages.foldl takePage s) = true ↔ bitmapTest j s = true ∨ j ∈ pages := by
  induction pages generalizing s with
  | nil => simp only [foldl_nil, not_mem_nil, or_false]
  | cons p pages ih =>
    rw [foldl_cons, ih, bitmapTest_takePage, mem_cons, or_assoc]

variable {j kernelEnd fuel : Nat}

theorem mem_pageRange {a b : Nat} : j ∈ pageRange a b ↔ a ≤ j ∧ j < b ∧ j < MAX_PAGES := by
  unfold pageRange
  by_cases h : a ≥ MAX_PAGES
  · rw [if_pos h]
    simp only [not_mem_nil, false_iff]
    omega
  · rw [if_neg h, mem_range'_1]
    omega

/-- The page at `p` has a byte in `[a, b)`. -/
def Overlaps (p a b : Nat) : Prop := ∃ x, p ≤ x ∧ x < p + PAGE_SIZE ∧ a ≤ x ∧ x < b

variable {s : Pmm} {mb : MultibootInfo}

/-- Reserving never clears a bit. -/
theorem reserveRange_mono (start stop : Nat) (h : bitmapTest j s = true) :
    bitmapTest j (reserveRange start stop s) = true := by
  unfold reserveRange
  by_cases hle : stop ≤ start
  · rw [if_pos hle]; exact h
  · rw [if_neg hle]; exact (test_foldl_takePage _ s j).mpr (Or.inl h)

/-- Reserving a range of 32-bit addresses sets the bit of every page that
    meets it. -/
theorem reserveRange_covers (s : Pmm) {start stop : Nat} (hfit : stop < 2 ^ 32)
    (hj : Overlaps (j * PAGE_SIZE) start stop) :
    bitmapTest j (reserveRange start stop s) = true := by
  rcases hj with ⟨x, h1, h2, h3, h4⟩
  rw [reserveRange, if_neg (by omega)]
  refine (test_foldl_takePage _ s j).mpr (Or.inr (mem_pageRange.mpr ?_))
  simp only [PAGE_SIZE, MAX_PAGES, u32, u64] at h1 h2 ⊢
  omega

/-- The bits of every reserved range are set, and the earlier ones stay. -/
theorem reserveRanges_covers (rs : List (Nat × Nat)) (s : Pmm)
    (hfit : ∀ r ∈ rs, r.1 < 2 ^ 32 ∧ r.2 < 2 ^ 32) (j : Nat)
    (h : bitmapTest j s = true ∨ ∃ r ∈ rs, Overlaps (j * PAGE_SIZE) r.1 r.2) :
    bitmapTest j (rs.foldl (fun t r => reserveRange r.1 r.2 t) s) = true := by
  induction rs generalizing s with
  | nil =>
    rcases h with h | ⟨r, hr, _⟩
    · exact h
    · exact absurd hr not_mem_nil
  | cons r rs ih =>
    refine ih _ (fun q hq => hfit q (mem_cons_of_mem _ hq)) ?_
    rcases h with h | ⟨q, hq, hov⟩
    · exact Or.inl (reserveRange_mono _ _ h)
    · rcases mem_cons.mp hq with rfl | hq
      · exact Or.inl (reserveRange_covers s (hfit q mem_cons_self).2 hov)
      · exact Or.inr ⟨q, hq, hov⟩

theorem bitmapTest_reserveKernel (hlo : 0x100000 ≤ kernelEnd) (hhi : kernelEnd ≤ 2 ^ 32) (s : Pmm)
    (j : Nat) :
    bitmapTest j (reserveKernel kernelEnd s) = true ↔
      bitmapTest j s = true ∨ j * PAGE_SIZE < kernelEnd := by
  unfold reserveKernel markRegionUsed
  rw [test_foldl_takePage, test_foldl_takePage, mem_pageRange, mem_pageRange, or_assoc]
  refine or_congr_right ?_
  simp only [u32, u64, PAGE_SIZE, MAX_PAGES]
  omega

theorem bitmapTest_totalPages (s : Pmm) (n : BitVec 32) (j : Nat) :
    bitmapTest j { s with totalPages := n } = bitmapTest j s := rfl

theorem bitmapTest_recordTotal (s : Pmm) (j : Nat) :
    bitmapTest j (recordTotal s) = bitmapTest j s := by
  -- The count is left alone: evaluating it would go through all the pages.
  rw [recordTotal, bitmapTest_totalPages]

/-! ### The map -/

/-- The addresses of the entries that the walk comes to from `offset`. -/
def mapOffsets (m : Mem) (mb : MultibootInfo) : Nat → Nat → List Nat
  | 0, _ => []
  | fuel + 1, offset =>
    if offset < mb.mmapLength then
      let a := u32 (mb.mmapAddr + offset)
      a :: mapOffsets m mb fuel (u32 (offset + u32 ((mmapEntry m a).size + 4)))
    else []

/-- The addresses of all entries; without the flag there is no map. -/
def mapEntries (fuel : Nat) (m : Mem) (mb : MultibootInfo) : List Nat :=
  if mb.flags &&& MULTIBOOT_FLAG_MMAP ≠ 0 then mapOffsets m mb fuel 0 else []

variable {m : Mem}

theorem walkMmap_eq (fuel offset : Nat) {t : Pmm} (h : walkMmap m mb fuel offset s = some t) :
    t = (mapOffsets m mb fuel offset).foldl (fun s a => addEntry (mmapEntry m a) s) s := by
  fun_induction walkMmap m mb fuel offset s with
  | case1 => cases h
  | case2 fuel offset s hlt =>
    rename_i ih
    rw [mapOffsets, if_pos hlt]
    exact ih h
  | case3 fuel offset s hlt =>
    rw [mapOffsets, if_neg hlt]
    exact (Option.some.inj h).symm

/-- `init` adds the entries to a full bitmap and reserves the kernel. -/
theorem init_eq (h : init fuel kernelEnd m mb = some s) :
    s = recordTotal (reserveKernel kernelEnd ((mapEntries fuel m mb).foldl
      (fun s a => addEntry (mmapEntry m a) s)
      { bitmap := fun _ => BitVec.allOnes 32, totalPages := 0, freePages := 0 })) := by
  unfold init at h
  rcases Option.map_eq_some_iff.mp h with ⟨t, ht, rfl⟩
  rw [mapEntries]
  by_cases hflag : mb.flags &&& MULTIBOOT_FLAG_MMAP ≠ 0
  · rw [if_pos hflag] at ht ⊢
    rw [walkMmap_eq fuel 0 ht]
  · rw [if_neg hflag, Option.some.injEq] at ht
    rw [if_neg hflag, ← ht]
    rfl

/-- After initialisation the first megabyte and the kernel image are
    reserved, whatever the memory map said. -/
theorem init_covers (h : init fuel kernelEnd m mb = some s) (hlo : 0x100000 ≤ kernelEnd)
    (hhi : kernelEnd ≤ 2 ^ 32) (hj : Overlaps (j * PAGE_SIZE) 0 kernelEnd) :
    bitmapTest j s = true := by
  rcases hj with ⟨x, hx, _, _, hend⟩
  rw [init_eq h, bitmapTest_recordTotal, bitmapTest_reserveKernel hlo hhi]
  exact Or.inr (Nat.lt_of_le_of_lt hx hend)

/-- An allocation takes a page whose bit was clear, or finds all bits set. -/
theorem allocPage_cases (s : Pmm) :
    (∃ page, page < MAX_PAGES ∧ bitmapTest page s = false ∧
      allocPage s = (takePage s page, page * PAGE_SIZE)) ∨
    (allocPage s = (s, 0) ∧ ∀ page, page < MAX_PAGES → bitmapTest page s = true) := by
  unfold allocPage
  cases hf : s.bitmap.firstClear 0 (MAX_PAGES / 32) with
  | some r =>
    rcases r with ⟨i, bit⟩
    rcases Bitmap.firstClear_some (Nat.zero_lt_succ 31) hf with ⟨hbit, hi, hclear⟩
    simp only [MAX_PAGES] at hi
    refine Or.inl ⟨i * 32 + bit, by simp only [MAX_PAGES]; omega, hclear, ?_⟩
    rw [takePage, if_pos (show bitmapTest (i * 32 + bit) s = false from hclear)]
  | none =>
    refine Or.inr ⟨rfl, fun page hp => ?_⟩
    simp only [MAX_PAGES] at hp
    have hword : page / 32 < 0 + MAX_PAGES / 32 := by simp only [MAX_PAGES]; omega
    exact Bitmap.firstClear_none (Nat.zero_lt_succ 31) hf page (Nat.zero_le _) hword

/-- Freeing a page other than the first. -/
theorem freePage_eq {page : Nat} (h0 : page ≠ 0) (hmax : page < MAX_PAGES) (s : Pmm) :
    freePage (page * PAGE_SIZE) s = releasePage s page := by
  simp only [MAX_PAGES] at hmax
  have hpage : u32 (page * PAGE_SIZE / PAGE_SIZE) = page := by
    simp only [u32, PAGE_SIZE]
    omega
  have hne : page * PAGE_SIZE ≠ 0 := by simp only [PAGE_SIZE]; omega
  unfold freePage
  rw [if_neg hne]
  simp only [hpage]
  rw [if_neg (by simp only [MAX_PAGES]; omega)]

/-! ### Sessions -/

/-- The allocator and what its clients know: the pages they hold, the ranges
    they reserved, and the end of the kernel image. -/
structure Session where
  pmm : Pmm
  outstanding : List Nat
  reserved : List (Nat × Nat)
  kernelEnd : Nat

inductive Request where
  | allocPage
  | freePage (addr : Nat)

/-- Clients free only pages they hold. -/
def Allowed (s : Session) : Request → Prop
  | .allocPage => True
  | .freePage addr => addr ∈ s.outstanding

/-- Record a page that was handed out. -/
def Session.grant (s : Session) (r : Pmm × Nat) : Session :=
  { s with pmm := r.1, outstanding := if r.2 = 0 then s.outstanding else r.2 :: s.outstanding }

def serve (s : Session) : Request → Option Session
  | .allocPage => some (s.grant (allocPage s.pmm))
  | .freePage addr => some
      { s with pmm := freePage addr s.pmm, outstanding := s.outstanding.erase addr }

/-- All sessions: `init` with a memory map whose walk ends, reservations of
    32-bit ranges, then allocation and freeing. The linker script puts the
    kernel image at 1 MB, and the boot loader loads it below 4 GB. -/
def sessions : Machine Session Request where
  start := fun s => ∃ fuel m mb p, init fuel s.kernelEnd m mb = some p ∧
    0x100000 ≤ s.kernelEnd ∧ s.kernelEnd ≤ 2 ^ 32 ∧
    (∀ r ∈ s.reserved, r.1 < 2 ^ 32 ∧ r.2 < 2 ^ 32) ∧
    s.pmm = s.reserved.foldl (fun t r => reserveRange r.1 r.2 t) p ∧ s.outstanding = []
  allows := Allowed
  exec := serve

/-- The page number `j` may never be handed out. -/
def Protected (s : Session) (j : Nat) : Prop :=
  Overlaps (j * PAGE_SIZE) 0 s.kernelEnd ∨
    ∃ r ∈ s.reserved, Overlaps (j * PAGE_SIZE) r.1 r.2

/-- The invariant of a session. -/
structure Inv (s : Session) : Prop where
  kernel : 0x100000 ≤ s.kernelEnd
  guarded : ∀ j, Protected s j → bitmapTest j s.pmm = true
  held : ∀ a ∈ s.outstanding, ∃ j, j < MAX_PAGES ∧ a = j * PAGE_SIZE ∧
    bitmapTest j s.pmm = true ∧ ¬ Protected s j
  nodup : s.outstanding.Nodup

variable {s : Session}

theorem inv_start (h : sessions.start s) : Inv s := by
  rcases h with ⟨fuel, m, mb, p, hinit, hlo, hhi, hfit, hpmm, hout⟩
  refine ⟨hlo, fun j hj => ?_, fun a ha => ?_, ?_⟩
  · rw [hpmm]
    refine reserveRanges_covers s.reserved p hfit j ?_
    rcases hj with hj | hj
    · exact Or.inl (init_covers hinit hlo hhi hj)
    · exact Or.inr hj
  · rw [hout] at ha
    exact absurd ha not_mem_nil
  · rw [hout]
    exact nodup_nil

/-- The first page holds address 0 and is protected. -/
theorem protected_zero (h : Inv s) : Protected s 0 :=
  Or.inl ⟨0, by omega, Nat.zero_lt_succ _, le_refl _, by have := h.kernel; omega⟩

/-- A page whose bit is clear is neither held nor protected. -/
theorem clear_fresh (h : Inv s) (hc : bitmapTest j s.pmm = false) :
    j * PAGE_SIZE ∉ s.outstanding ∧ ¬ Protected s j := by
  constructor
  · intro hmem
    rcases h.held _ hmem with ⟨k, _, hk, hused, _⟩
    have hkj : k = j := by simp only [PAGE_SIZE] at hk; omega
    rw [hkj, hc] at hused
    exact absurd hused Bool.false_ne_true
  · intro hp
    rw [h.guarded j hp] at hc
    exact absurd hc.symm Bool.false_ne_true

theorem inv_allocPage (h : Inv s) : Inv (s.grant (allocPage s.pmm)) := by
  rcases allocPage_cases s.pmm with ⟨page, hmax, hclear, halloc⟩ | ⟨halloc, _⟩
  · rcases clear_fresh h hclear with ⟨hfresh, hfree⟩
    have hne : page * PAGE_SIZE ≠ 0 := by
      intro h0
      have hz : page = 0 := by simp only [PAGE_SIZE] at h0; omega
      exact hfree (hz ▸ protected_zero h)
    have htest := bitmapTest_takePage s.pmm page
    rw [halloc, Session.grant, if_neg hne]
    refine ⟨h.kernel, fun j hj => (htest j).mpr (Or.inl (h.guarded j hj)), fun a ha => ?_, ?_⟩
    · rcases mem_cons.mp ha with rfl | ha
      · exact ⟨page, hmax, rfl, (htest page).mpr (Or.inr rfl), hfree⟩
      · rcases h.held a ha with ⟨j, h1, h2, h3, h4⟩
        exact ⟨j, h1, h2, (htest j).mpr (Or.inl h3), h4⟩
    · exact nodup_cons.mpr ⟨hfresh, h.nodup⟩
  · rw [halloc, Session.grant, if_pos rfl]
    exact ⟨h.kernel, h.guarded, h.held, h.nodup⟩

theorem inv_freePage (h : Inv s) {addr : Nat} (ha : addr ∈ s.outstanding) :
    Inv { s with pmm := freePage addr s.pmm, outstanding := s.outstanding.erase addr } := by
  rcases h.held addr ha with ⟨page, hmax, rfl, hused, hfree⟩
  have hne : page ≠ 0 := fun h0 => hfree (h0 ▸ protected_zero h)
  have htest := bitmapTest_releasePage s.pmm page
  rw [freePage_eq hne hmax]
  refine ⟨h.kernel, fun j hj => ?_, fun b hb => ?_, h.nodup.erase _⟩
  · exact (htest j).mpr ⟨h.guarded j hj, fun hjp => hfree (hjp ▸ hj)⟩
  · rcases (h.nodup.mem_erase_iff).mp hb with ⟨hbne, hbmem⟩
    rcases h.held b hbmem with ⟨j, h1, h2, h3, h4⟩
    exact ⟨j, h1, h2, (htest j).mpr ⟨h3, fun hjp => hbne (by rw [h2, hjp])⟩, h4⟩

theorem inv_step {t : Session} {o : Request} (h : Inv s) (ho : Allowed s o)
    (he : serve s o = some t) : Inv t := by
  cases o with
  | allocPage =>
    rw [serve, Option.some.injEq] at he
    exact he ▸ inv_allocPage h
  | freePage addr =>
    rw [serve, Option.some.injEq] at he
    exact he ▸ inv_freePage h ho

theorem inv_reachable (hs : sessions.Reachable s) : Inv s :=
  Machine.Reachable.invariant Inv (fun _ h => inv_start h)
    (fun _ _ _ h ho he => inv_step h ho he) hs

/-- In every state of every run, the page an allocation returns is not
    outstanding, not below 1 MB, not part of the kernel image and not part of
    a reserved range; and it returns 0 only if every bit is set. -/
theorem allocPage_sound {s : Session} (hs : sessions.Reachable s) :
    ((allocPage s.pmm).2 ≠ 0 →
      (allocPage s.pmm).2 ∉ s.outstanding ∧ 0x100000 ≤ (allocPage s.pmm).2 ∧
      ¬ Overlaps (allocPage s.pmm).2 0x100000 s.kernelEnd ∧
      ∀ r ∈ s.reserved, ¬ Overlaps (allocPage s.pmm).2 r.1 r.2) ∧
    ((allocPage s.pmm).2 = 0 → ∀ page, page < MAX_PAGES → bitmapTest page s.pmm = true) := by
  have h := inv_reachable hs
  rcases allocPage_cases s.pmm with ⟨page, hmax, hclear, halloc⟩ | ⟨halloc, hall⟩
  · rcases clear_fresh h hclear with ⟨hfresh, hfree⟩
    rw [halloc]
    refine ⟨fun _ => ⟨hfresh, ?_, fun hov => ?_, fun r hr hov => ?_⟩, fun h0 => ?_⟩
    · -- A page below 1 MB meets the reserved first megabyte.
      by_contra hlow
      refine hfree (Or.inl ⟨page * PAGE_SIZE, le_refl _, ?_, Nat.zero_le _, ?_⟩)
      · simp only [PAGE_SIZE]; omega
      · have := h.kernel; omega
    · rcases hov with ⟨x, h1, h2, _, h4⟩
      exact hfree (Or.inl ⟨x, h1, h2, Nat.zero_le _, h4⟩)
    · exact hfree (Or.inr ⟨r, hr, hov⟩)
    · have hz : page = 0 := by simp only [PAGE_SIZE] at h0; omega
      exact absurd (hz ▸ protected_zero h) hfree
  · rw [halloc]
    exact ⟨fun h0 => absurd rfl h0, fun _ => hall⟩

/-- A boot loader's map of three available pages at 1 MB. -/
def threePages : Mem :=
  store (store (store (store (fun _ => 0) 0x9000 4 20) 0x9004 4 0x100000) 0x900C 4 0x3000)
    0x9014 4 1

/-- Where a session starts. -/
theorem reachable_init {m : Mem} {p : Pmm} (h : init fuel kernelEnd m mb = some p)
    (hlo : 0x100000 ≤ kernelEnd) (hhi : kernelEnd ≤ 2 ^ 32) (rs : List (Nat × Nat))
    (hfit : ∀ r ∈ rs, r.1 < 2 ^ 32 ∧ r.2 < 2 ^ 32) :
    sessions.Reachable
      { pmm := rs.foldl (fun t r => reserveRange r.1 r.2 t) p, outstanding := [],
        reserved := rs, kernelEnd := kernelEnd } :=
  Machine.Reachable.start _ ⟨fuel, m, mb, p, h, hlo, hhi, hfit, rfl, rfl⟩

/-- With a one-page kernel and a reserved module behind it, the third page
    is left to hand out. -/
theorem allocPage_sound_third_page :
    ∃ s, sessions.Reachable s ∧ bitmapTest 258 s.pmm = false ∧ (allocPage s.pmm).2 ≠ 0 ∧
      (allocPage s.pmm).2 ∉ s.outstanding ∧ 0x100000 ≤ (allocPage s.pmm).2 ∧
      ¬ Overlaps (allocPage s.pmm).2 0x100000 s.kernelEnd ∧
      ∀ r ∈ s.reserved, ¬ Overlaps (allocPage s.pmm).2 r.1 r.2 := by
  have hbit : (init 2 0x101000 threePages
      { flags := 64#32, mmapLength := 24, mmapAddr := 0x9000 }).map (fun p =>
        bitmapTest 258 ([(0x101000, 0x101800)].foldl (fun t r => reserveRange r.1 r.2 t) p)) =
          some false := by
    decide +kernel
  rcases Option.map_eq_some_iff.mp hbit with ⟨p, hp, hclear⟩
  have hs := reachable_init hp (by omega) (by omega) [(0x101000, 0x101800)] (by decide)
  generalize hq : [(0x101000, 0x101800)].foldl (fun t r => reserveRange r.1 r.2 t) p = q
    at hs hclear
  have hsound := allocPage_sound hs
  have hne : (allocPage q).2 ≠ 0 := by
    intro h0
    rw [hsound.2 h0 258 (by simp only [MAX_PAGES]; omega)] at hclear
    exact absurd hclear.symm Bool.false_ne_true
  exact ⟨_, hs, hclear, hne, hsound.1 hne⟩

end SysRust.Pmm
