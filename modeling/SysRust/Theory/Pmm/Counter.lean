import SysRust.Theory.Pmm

/-!
# The Page Counters

`FREE_PAGES` is kept up to date by four loops that look at one bit at a time,
while `TOTAL_PAGES` is counted afresh at the end of `init`. Both are exact:
the first is the number of clear bits, and the second is the number of all
bits, since each of them is counted as free or as used.

Every change of the counter goes together with the change of one bit, so the
induction is over the single pages of a loop, whatever list of pages it goes
over. In an exact state a clear bit is a page that has been counted, and
taking it cannot bring the counter below zero.

## Main definitions

* `Exact`, `Counted`: The free counter is the number of clear bits.
* `Call`, `calls`: All sequences of calls behind an `init`.

## Theorems

* `counted_takePage`, `counted_releasePage`: One page.
* `counted_init`: The counters after `init`.
* `freePages_exact`: The counters in every run.
-/

namespace SysRust.Pmm

/-- The free counter is the number of clear bits. -/
def Exact (s : Pmm) : Prop := s.freePages.toNat = (s.bitmap.absent MAX_PAGES).card

/-- The free counter is exact, and the other one is `n`. -/
def Counted (n : BitVec 32) (s : Pmm) : Prop := Exact s ∧ s.totalPages = n

/-! ### One page -/

variable {page fuel kernelEnd : Nat} {n : BitVec 32} {s t : Pmm} {m : Mem} {mb : MultibootInfo}

/-- A page that can be taken has been counted. -/
theorem Exact.pos (h : Exact s) (hp : page < MAX_PAGES) (hc : bitmapTest page s = false) :
    0 < s.freePages.toNat := by
  rw [h]
  exact Finset.card_pos.mpr ⟨page, Bitmap.mem_absent.mpr ⟨hp, hc⟩⟩

/-- Taking a free page and counting it down. -/
theorem exact_set (h : Exact s) (hp : page < MAX_PAGES) (hc : bitmapTest page s = false) :
    Exact { bitmapSet page s with freePages := s.freePages - 1 } := by
  have hpos := h.pos hp hc
  have hmem : page ∈ s.bitmap.absent MAX_PAGES := Bitmap.mem_absent.mpr ⟨hp, hc⟩
  have hcard := Finset.card_erase_of_mem hmem
  have hset : (bitmapSet page s).bitmap.absent MAX_PAGES = (s.bitmap.absent MAX_PAGES).erase page :=
    Bitmap.absent_set s.bitmap page MAX_PAGES (Nat.zero_lt_succ 31)
  show (s.freePages - 1#32).toNat = ((bitmapSet page s).bitmap.absent MAX_PAGES).card
  rw [hset, hcard, ← show s.freePages.toNat = _ from h, BitVec.toNat_sub]
  rw [show (1#32).toNat = 1 from rfl]
  omega

theorem counted_takePage {s : Pmm} (h : Counted n s) {page : Nat} (hp : page < MAX_PAGES) :
    Counted n (takePage s page) := by
  unfold takePage
  by_cases hc : bitmapTest page s = false
  · rw [if_pos hc]
    exact ⟨exact_set h.1 hp hc, h.2⟩
  · rw [if_neg hc]
    exact h

theorem counted_releasePage {s : Pmm} (h : Counted n s) {page : Nat} (hp : page < MAX_PAGES) :
    Counted n (releasePage s page) := by
  unfold releasePage
  by_cases hu : bitmapTest page s = true
  · rw [if_pos hu]
    have hnew : page ∉ s.bitmap.absent MAX_PAGES := by
      intro hmem
      have hc : bitmapTest page s = false := (Bitmap.mem_absent.mp hmem).2
      rw [hu] at hc
      exact Bool.noConfusion hc
    have hclear : (bitmapClear page s).bitmap.absent MAX_PAGES =
        insert page (s.bitmap.absent MAX_PAGES) :=
      Bitmap.absent_clear s.bitmap hp (Nat.zero_lt_succ 31)
    have hle := Bitmap.card_absent_le s.bitmap MAX_PAGES
    rw [← show s.freePages.toNat = _ from h.1] at hle
    simp only [MAX_PAGES] at hle
    refine ⟨?_, h.2⟩
    show (s.freePages + 1#32).toNat = ((bitmapClear page s).bitmap.absent MAX_PAGES).card
    rw [hclear, Finset.card_insert_of_notMem hnew, ← show s.freePages.toNat = _ from h.1,
      BitVec.toNat_add, show (1#32).toNat = 1 from rfl]
    omega
  · rw [if_neg hu]
    exact h

/-! ### The loops -/

variable {f : Pmm → Nat → Pmm}

theorem counted_foldl
    (hf : ∀ {s : Pmm}, Counted n s → ∀ {page : Nat}, page < MAX_PAGES → Counted n (f s page))
    (pages : List Nat) (hp : ∀ page ∈ pages, page < MAX_PAGES) (h : Counted n s) :
    Counted n (pages.foldl f s) :=
  List.foldlRecOn pages f h (fun _ hs page hpage => hf hs (hp page hpage))

theorem pageRange_lt (a b : Nat) : ∀ page ∈ pageRange a b, page < MAX_PAGES :=
  fun _ h => (mem_pageRange.mp h).2.2

theorem counted_markRegionUsed (h : Counted n s) (base length : Nat) :
    Counted n (markRegionUsed base length s) :=
  counted_foldl counted_takePage _ (pageRange_lt _ _) h

theorem counted_addEntry (h : Counted n s) (e : MmapEntry) : Counted n (addEntry e s) := by
  unfold addEntry
  by_cases ha : e.entryType = 1 ∧ e.baseHigh = 0
  · rw [if_pos ha]
    by_cases hlt : e.baseLow < min (e.baseLow + e.lengthLow) (MAX_PAGES * PAGE_SIZE)
    · simp only [if_pos hlt]
      exact counted_foldl counted_releasePage _ (pageRange_lt _ _) h
    · simp only [if_neg hlt]
      exact h
  · rw [if_neg ha]
    exact h

/-- All bits set and nothing counted. -/
theorem counted_full (n : BitVec 32) :
    Counted n { bitmap := fun _ => BitVec.allOnes 32, totalPages := n, freePages := 0 } := by
  have hnone : (Bitmap.absent (fun _ => BitVec.allOnes 32) MAX_PAGES) = ∅ := by
    refine Finset.eq_empty_of_forall_notMem (fun i hi => ?_)
    have hc := (Bitmap.mem_absent.mp hi).2
    exact Bool.noConfusion (hc.symm.trans (bitmapTest_full n 0 i))
  refine ⟨?_, rfl⟩
  show (0 : BitVec 32).toNat = _
  rw [hnone, Finset.card_empty]
  rfl

/-! ### Initialisation -/

/-- Every page is counted once, as free or as used. -/
theorem recordTotal_spec (h : Exact s) :
    Exact (recordTotal s) ∧ (recordTotal s).totalPages.toNat = MAX_PAGES := by
  have hle := Bitmap.card_absent_le s.bitmap MAX_PAGES
  constructor
  · rw [Exact, recordTotal]
    exact h
  · show (s.freePages + countUsed s.bitmap).toNat = MAX_PAGES
    rw [countUsed, Bitmap.count_foldl, BitVec.toNat_add, BitVec.toNat_ofNat,
      show s.freePages.toNat = _ from h]
    simp only [MAX_PAGES] at hle ⊢
    omega

/-- What `init` counts up: the pages as they are when all loops are done. -/
theorem counted_init (h : init fuel kernelEnd m mb = some s) :
    Exact s ∧ s.totalPages.toNat = MAX_PAGES := by
  rw [init_eq h]
  have hwalked := List.foldlRecOn (mapEntries fuel m mb) (fun s a => addEntry (mmapEntry m a) s)
    (counted_full 0) (fun _ hs a _ => counted_addEntry hs (mmapEntry m a))
  exact recordTotal_spec (counted_markRegionUsed (counted_markRegionUsed hwalked _ _) _ _).1

/-! ### Calls -/

theorem counted_allocPage (h : Counted n s) : Counted n (allocPage s).1 := by
  rcases allocPage_cases s with ⟨page, hp, _, he⟩ | ⟨he, _⟩
  · rw [he]
    exact counted_takePage h hp
  · rw [he]
    exact h

theorem counted_freePage (h : Counted n s) (addr : Nat) : Counted n (freePage addr s) := by
  unfold freePage
  by_cases h0 : addr = 0
  · rw [if_pos h0]
    exact h
  · rw [if_neg h0]
    by_cases hmax : u32 (addr / PAGE_SIZE) ≥ MAX_PAGES
    · simp only [if_pos hmax]
      exact h
    · simp only [if_neg hmax]
      exact counted_releasePage h (by omega)

theorem counted_reserveRange (h : Counted n s) (start stop : Nat) :
    Counted n (reserveRange start stop s) := by
  unfold reserveRange
  by_cases hle : stop ≤ start
  · rw [if_pos hle]
    exact h
  · rw [if_neg hle]
    exact counted_markRegionUsed h _ _

/-- The calls with their arguments. A call of `init` brings its memory map,
    and as much fuel as its walk is given. -/
inductive Call where
  | init (fuel kernelEnd : Nat) (m : Mem) (mb : MultibootInfo)
  | reserveRange (start stop : Nat)
  | allocPage
  | freePage (addr : Nat)

def serveCall (s : Pmm) : Call → Option Pmm
  | .init fuel kernelEnd m mb => Pmm.init fuel kernelEnd m mb
  | .reserveRange start stop => some (Pmm.reserveRange start stop s)
  | .allocPage => some (Pmm.allocPage s).1
  | .freePage addr => some (Pmm.freePage addr s)

/-- All sequences of calls behind an `init`, with any arguments. -/
def calls : Machine Pmm Call where
  start := fun s => ∃ fuel kernelEnd m mb, init fuel kernelEnd m mb = some s
  allows := fun _ _ => True
  exec := serveCall

theorem serveCall_counted {c : Call} (h : serveCall s c = some t)
    (hs : Exact s ∧ s.totalPages.toNat = MAX_PAGES) :
    Exact t ∧ t.totalPages.toNat = MAX_PAGES := by
  -- Only `init` sets the other counter.
  have hkept (ht : Counted s.totalPages t) : Exact t ∧ t.totalPages.toNat = MAX_PAGES :=
    ⟨ht.1, ht.2 ▸ hs.2⟩
  cases c with
  | init fuel kernelEnd m mb => exact counted_init h
  | reserveRange start stop =>
    rw [serveCall, Option.some.injEq] at h
    exact hkept (h ▸ counted_reserveRange ⟨hs.1, rfl⟩ start stop)
  | allocPage =>
    rw [serveCall, Option.some.injEq] at h
    exact hkept (h ▸ counted_allocPage ⟨hs.1, rfl⟩)
  | freePage addr =>
    rw [serveCall, Option.some.injEq] at h
    exact hkept (h ▸ counted_freePage ⟨hs.1, rfl⟩ addr)

/-- After every call of every run, `FREE_PAGES` is the number of clear bits
    and `TOTAL_PAGES` the number of all bits; and wherever a page is taken, be
    it in the middle of a loop over any pages, the counter is not zero. -/
theorem freePages_exact {s : Pmm} (hs : calls.Reachable s) :
    s.freePages.toNat = (s.bitmap.absent MAX_PAGES).card ∧
    s.totalPages.toNat = MAX_PAGES ∧
    ∀ pages : List Nat, (∀ page ∈ pages, page < MAX_PAGES) → ∀ page, page < MAX_PAGES →
      bitmapTest page (pages.foldl takePage s) = false →
      0 < (pages.foldl takePage s).freePages.toNat := by
  have hinv : Exact s ∧ s.totalPages.toNat = MAX_PAGES := by
    refine Machine.Reachable.invariant (fun s => Exact s ∧ s.totalPages.toNat = MAX_PAGES)
      (fun s h => ?_) (fun s t c h _ he => ?_) hs
    · rcases h with ⟨fuel, kernelEnd, m, mb, h⟩
      exact counted_init h
    · exact serveCall_counted he h
  refine ⟨hinv.1, hinv.2, fun pages hpages page hp hc => ?_⟩
  exact (counted_foldl counted_takePage pages hpages ⟨hinv.1, rfl⟩).1.pos hp hc

/-- After the map of three available pages at 1 MB and a one-page kernel. -/
theorem freePages_exact_threePages :
    ∃ s, calls.Reachable s ∧ s.freePages = 2 ∧ (s.bitmap.absent MAX_PAGES).card = 2 ∧
      s.totalPages.toNat = MAX_PAGES := by
  have hfree : (init 2 0x101000 threePages
      { flags := 64#32, mmapLength := 24, mmapAddr := 0x9000 }).map (fun p => p.freePages) =
        some 2 := by
    decide +kernel
  rcases Option.map_eq_some_iff.mp hfree with ⟨p, hp, h2⟩
  have hs : calls.Reachable p := Machine.Reachable.start p ⟨_, _, _, _, hp⟩
  have h := freePages_exact hs
  refine ⟨p, hs, h2, ?_, h.2.1⟩
  rw [← h.1, h2]
  rfl

end SysRust.Pmm
