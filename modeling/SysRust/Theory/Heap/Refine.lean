import SysRust.Theory.Heap.Blocks

/-!
# The Header List Refines the Block List

The connection between the allocator as it runs and the abstract heap of
`Theory.Heap.Blocks`. `LSeg m p bs q` reads the blocks `bs` off the memory
by following `next` from `p`, arriving at `q`; `HeapRep h a` says that the
whole list from `HEAP_HEAD` is the abstract heap `a` and that `a` is
structurally sound.

Each function of the allocator gets one theorem: started on a represented
heap it finishes, and it ends on the representation of what the abstract
operation does. The loops therefore never run out of their bound, and no
structural fact has to be proved about memory again.

All of a function's stores stay inside the block or the range it works on.
That is the whole frame argument: the segments before and after it are made
of headers elsewhere, and `lseg_congr` carries them over.

## Main definitions

* `HeaderAt`: The header in memory is that of the block.
* `LSeg`: The header list from one pointer to another.
* `HeapRep`: A heap state represents an abstract heap.

## Theorems

* `lseg_append`: Splitting a segment.
* `lseg_congr`: A segment depends only on its headers.
* `tryAlloc_refines`, `search_refines`: Allocation refines `firstFit`.
* `coalesce_refines`: Coalescing refines `glue`.
* `expandHeap_refines`: Growing refines `Blocks.expand`.
* `kmalloc_refines`, `kfree_refines`, `init_refines`: The public interface.
-/

namespace SysRust.Heap

/-! ### Header fields under stores -/

variable {m m' : Mem} {p q hi lo size : Nat} {b c : Block} {bs : List Block}

/-- A header depends only on its own sixteen bytes. -/
theorem fields_congr (h : AgreeOn m m' p (p + HEADER_SIZE)) :
    sizeAt m p = sizeAt m' p ∧ isFreeAt m p = isFreeAt m' p ∧ nextAt m p = nextAt m' p := by
  simp only [HEADER_SIZE] at h
  exact ⟨load_congr (agreeOn_mono h (by omega) (by omega)),
    load_congr (agreeOn_mono h (by omega) (by omega)),
    load_congr (agreeOn_mono h (by omega) (by omega))⟩

/-- The memory `m'` is `m` but for the header at `p`, which has these fields. -/
structure Fields (m m' : Mem) (p size free next : Nat) : Prop where
  size : sizeAt m' p = size
  free : isFreeAt m' p = free
  next : nextAt m' p = next
  frame : AgreeOff m m' p (p + HEADER_SIZE)

theorem fields_refl (m : Mem) (p : Nat) :
    Fields m m p (sizeAt m p) (isFreeAt m p) (nextAt m p) :=
  ⟨rfl, rfl, rfl, fun _ _ => rfl⟩

namespace Fields

variable {free next : Nat} (h : Fields m m' p size free next) (v : Nat)

include h

theorem setSize : Fields m (setSize m' p v) p (v % 2 ^ 32) free next where
  size := load_store_self m' p 4 v
  free := (load_store_disjoint (by omega)).trans h.free
  next := (load_store_disjoint (by omega)).trans h.next
  frame := h.frame.trans
    ((agreeOff_store m' p 4 v).mono (Nat.le_refl _) (by simp only [HEADER_SIZE]; omega))

theorem setIsFree : Fields m (setIsFree m' p v) p size (v % 2 ^ 32) next where
  size := (load_store_disjoint (by omega)).trans h.size
  free := load_store_self m' (p + 4) 4 v
  next := (load_store_disjoint (by omega)).trans h.next
  frame := h.frame.trans
    ((agreeOff_store m' (p + 4) 4 v).mono (by omega) (by simp only [HEADER_SIZE]; omega))

theorem setNext : Fields m (setNext m' p v) p size free (v % 2 ^ 64) where
  size := (load_store_disjoint (by omega)).trans h.size
  free := (load_store_disjoint (by omega)).trans h.free
  next := load_store_self m' (p + 8) 8 v
  frame := h.frame.trans
    ((agreeOff_store m' (p + 8) 8 v).mono (by omega) (by simp only [HEADER_SIZE]; omega))

end Fields

/-! ### Segments -/

/-- The header in memory is that of the block. -/
def HeaderAt (m : Mem) (b : Block) : Prop :=
  sizeAt m b.addr = b.size ∧ isFreeAt m b.addr = if b.free = true then 1 else 0

/-- Following `next` from `p` reads off the blocks `bs` and arrives at `q`. -/
def LSeg (m : Mem) : Nat → List Block → Nat → Prop
  | p, [], q => p = q
  | p, b :: bs, q => p = b.addr ∧ HeaderAt m b ∧ LSeg m (nextAt m p) bs q

theorem headerAt_free (h : HeaderAt m b) : isFreeAt m b.addr ≠ 0 ↔ b.free = true := by
  rw [h.2]
  by_cases hb : b.free = true
  · rw [if_pos hb]
    exact ⟨fun _ => hb, fun _ => Nat.one_ne_zero⟩
  · rw [if_neg hb]
    exact ⟨fun h0 => absurd rfl h0, fun h1 => absurd h1 hb⟩

theorem lseg_append {m : Mem} {p q : Nat} {xs ys : List Block} :
    LSeg m p (xs ++ ys) q ↔ ∃ r, LSeg m p xs r ∧ LSeg m r ys q := by
  induction xs generalizing p with
  | nil => simp only [List.nil_append, LSeg, exists_eq_left']
  | cons b xs ih => simp only [List.cons_append, LSeg, ih, and_assoc, exists_and_left]

/-- A header read off the list is the header of its block. -/
theorem lseg_header (hl : LSeg m p bs q) (hb : b ∈ bs) : HeaderAt m b := by
  rcases List.append_of_mem hb with ⟨pre, post, rfl⟩
  rcases lseg_append.mp hl with ⟨r, _, _, hh, _⟩
  exact hh

/-- A header that did not change, in front of a segment. -/
theorem lseg_cons (h : AgreeOn m m' b.addr (b.addr + HEADER_SIZE)) (hh : HeaderAt m b)
    (hl : LSeg m' (nextAt m b.addr) bs q) : LSeg m' b.addr (b :: bs) q := by
  rcases fields_congr h with ⟨hs, hf, hn⟩
  rw [HeaderAt, hs, hf] at hh
  rw [hn] at hl
  exact ⟨rfl, hh, hl⟩

/-- A segment depends only on its headers. -/
theorem lseg_congr (h : ∀ b ∈ bs, AgreeOn m m' b.addr (b.addr + HEADER_SIZE)) (hl : LSeg m p bs q) :
    LSeg m' p bs q := by
  induction bs generalizing p with
  | nil => exact hl
  | cons b bs ih =>
    rcases hl with ⟨rfl, hh, hrest⟩
    exact lseg_cons (h b List.mem_cons_self) hh
      (ih (fun c hc => h c (List.mem_cons_of_mem _ hc)) hrest)

/-- A segment inside `[lo, hi)` survives a change outside it. -/
theorem lseg_frame (ht : Tiles lo bs hi) (h : AgreeOn m m' lo hi) (hl : LSeg m p bs q) :
    LSeg m' p bs q := by
  refine lseg_congr (fun b hb => agreeOn_mono h ?_ ?_) hl
  · exact (tiles_bounds ht b hb).1
  · have hstop := (tiles_bounds ht b hb).2
    simp only [Block.stop] at hstop
    omega

/-- The segment's first pointer is its first block, or its end. -/
theorem lseg_start (ht : Tiles lo bs hi) (hl : LSeg m p bs q) :
    (bs = [] ∧ p = q) ∨ (bs ≠ [] ∧ p = lo) := by
  cases bs with
  | nil => exact Or.inl ⟨rfl, hl⟩
  | cons b bs => exact Or.inr ⟨List.cons_ne_nil _ _, hl.1.trans ht.1⟩

/-! ### Writing a header -/

/-- The memory `m'` is `m` but for the header of the block, which points to
    `next`. -/
structure Writes (m m' : Mem) (b : Block) (next : Nat) : Prop where
  header : HeaderAt m' b
  next : nextAt m' b.addr = next
  frame : AgreeOff m m' b.addr (b.addr + HEADER_SIZE)

/-- The block and the segment behind it, after its header has been written. -/
theorem Writes.cons {next : Nat} (hw : Writes m m' b next) (ht : Tiles lo bs hi)
    (hout : b.addr + HEADER_SIZE ≤ lo) (hl : LSeg m next bs q) : LSeg m' b.addr (b :: bs) q := by
  refine ⟨rfl, hw.header, ?_⟩
  rw [hw.next]
  exact lseg_frame ht (hw.frame.on (Or.inr hout)) hl

/-- The header of a new free block. -/
theorem writes_new (m : Mem) (p : Nat) {next : Nat} (hsize : size < 2 ^ 32)
    (hnext : next < 2 ^ 64) :
    Writes m (setNext (setIsFree (setSize m p size) p 1) p next) ⟨p, size, true⟩ next := by
  have h := (((fields_refl m p).setSize size).setIsFree 1).setNext next
  rw [Nat.mod_eq_of_lt hsize, Nat.mod_eq_of_lt hnext] at h
  exact ⟨⟨h.size, h.free⟩, h.next, h.frame⟩

/-- Setting the flag of a block. -/
theorem writes_flag (hh : HeaderAt m b) (v : Bool) :
    Writes m (setIsFree m b.addr (if v = true then 1 else 0)) { b with free := v }
      (nextAt m b.addr) := by
  have h := (fields_refl m b.addr).setIsFree (if v = true then 1 else 0)
  refine ⟨⟨h.size.trans hh.1, h.free.trans ?_⟩, h.next, h.frame⟩
  cases v <;> rfl

/-! ### Allocation -/

/-- Allocating from a free block that fits does what `place` does, and no
    store leaves the block. -/
theorem tryAlloc_refines {post : List Block} (hl : LSeg m b.addr (b :: post) q)
    (ht : Tiles b.stop post hi) (hlo : 2 * HEADER_SIZE ≤ b.addr) (hhi : b.stop ≤ 2 ^ 32)
    (hfree : b.free = true) (hsize : size ≤ b.size) :
    ∃ m', tryAlloc m b.addr size = (m', b.ptr) ∧ LSeg m' b.addr (place size b ++ post) q ∧
      AgreeOff m m' b.addr b.stop := by
  rcases hl with ⟨_, hh, hrest⟩
  have hnext : nextAt m b.addr < 2 ^ 64 := load_lt _ _ 8
  simp only [Block.stop, HEADER_SIZE] at ht hlo hhi ⊢
  unfold tryAlloc
  rw [if_pos ⟨(headerAt_free hh).mpr hfree, by rw [hh.1]; exact hsize⟩]
  have hbound : u32 (u32 (size + HEADER_SIZE) + MIN_SPLIT) = size + HEADER_SIZE + MIN_SPLIT := by
    simp only [u32, HEADER_SIZE, MIN_SPLIT]
    omega
  rw [hbound, hh.1]
  unfold place
  by_cases hs : size + HEADER_SIZE + MIN_SPLIT ≤ b.size
  · -- The block is split: the remainder's header lies inside the old block.
    rw [if_pos hs, if_pos hs]
    simp only [HEADER_SIZE, MIN_SPLIT] at hs
    have hsplit : b.addr + u32 (HEADER_SIZE + size) = b.addr + HEADER_SIZE + size := by
      simp only [u32, HEADER_SIZE]
      omega
    have hrem : wrappingSub32 (wrappingSub32 b.size size) HEADER_SIZE
        = b.size - size - HEADER_SIZE := by
      simp only [wrappingSub32, u32, HEADER_SIZE]
      omega
    rw [hsplit, hrem]
    set split := b.addr + HEADER_SIZE + size with hsplitdef
    simp only [HEADER_SIZE] at hsplitdef
    have hcur : nextAt (setIsFree (setSize m split (b.size - size - HEADER_SIZE)) split 1) b.addr =
        nextAt m b.addr := by
      have hsame := ((fields_refl m split).setSize (b.size - size - HEADER_SIZE)).setIsFree 1
      exact (fields_congr (hsame.frame.on (Or.inl (by simp only [HEADER_SIZE]; omega)))).2.2.symm
    have hfit : b.size - size - HEADER_SIZE < 2 ^ 32 := by omega
    have hrem' := writes_new m split hfit hnext
    simp only [hcur]
    set m3 := setNext (setIsFree (setSize m split (b.size - size - HEADER_SIZE)) split 1) split
      (nextAt m b.addr)
    set m6 := setIsFree (setNext (setSize m3 b.addr size) b.addr split) b.addr 0
    have hown : Writes m3 m6 ⟨b.addr, size, false⟩ split := by
      have h := (((fields_refl m3 b.addr).setSize size).setNext split).setIsFree 0
      refine ⟨⟨h.size.trans ?_, h.free⟩, h.next.trans ?_, h.frame⟩
      · exact Nat.mod_eq_of_lt (by omega)
      · exact Nat.mod_eq_of_lt (by omega)
    have hinner : split + 16 ≤ b.addr + 16 + b.size := by omega
    have htrest : Tiles split (⟨split, b.size - size - HEADER_SIZE, true⟩ :: post) hi := by
      refine ⟨rfl, ?_⟩
      simp only [Block.stop, HEADER_SIZE]
      rw [show split + 16 + (b.size - size - 16) = b.addr + 16 + b.size by omega]
      exact ht
    refine ⟨m6, rfl, hown.cons htrest ?_ (hrem'.cons ht hinner hrest), ?_⟩
    · simp only [HEADER_SIZE]
      omega
    · exact (hrem'.frame.mono (by simp only []; omega) hinner).trans
        (hown.frame.mono (Nat.le_refl _) (Nat.le_add_right _ _))
  · -- The whole block is handed out: only its flag changes.
    rw [if_neg hs, if_neg hs]
    have hflag := writes_flag hh false
    exact ⟨_, rfl, hflag.cons ht (Nat.le_add_right _ _) hrest,
      hflag.frame.mono (Nat.le_refl _) (Nat.le_add_right _ _)⟩

/-- A block that is taken or too small is passed over untouched. -/
theorem tryAlloc_skip (hh : HeaderAt m b) (h : ¬ (b.free = true ∧ size ≤ b.size)) :
    tryAlloc m b.addr size = (m, 0) := by
  unfold tryAlloc
  rw [if_neg]
  rintro ⟨hf, hs⟩
  rw [hh.1] at hs
  exact h ⟨(headerAt_free hh).mp hf, hs⟩

/-- The first-fit loop does what `firstFit` does, or nothing if no block fits.
    The induction is on the loop's bound, with the rest of the list
    generalised; the frame clause keeps the blocks already passed. -/
theorem search_refines (size : Nat) {f cur : Nat} (hl : LSeg m cur bs 0) (ht : Tiles lo bs hi)
    (hlo : 2 * HEADER_SIZE ≤ lo) (hhi : hi ≤ 2 ^ 32) (hf : bs.length < f) :
    ∃ m', search size f m cur = some (m', ((firstFit size bs).getD (bs, 0)).2) ∧
      LSeg m' cur ((firstFit size bs).getD (bs, 0)).1 0 ∧ AgreeOn m m' 0 lo := by
  induction f generalizing bs cur lo with
  | zero => omega
  | succ f ih =>
    cases bs with
    | nil =>
      have hcur : cur = 0 := hl
      exact ⟨m, by simp only [search, hcur, if_true]; rfl, hl, agreeOn_refl _ _ _⟩
    | cons b post =>
      rcases hl with ⟨rfl, hh, hrest⟩
      have haddr : b.addr = lo := ht.1
      have hstop := tiles_le ht.2
      have hne : b.addr ≠ 0 := by simp only [HEADER_SIZE] at hlo; omega
      by_cases hb : b.free = true ∧ size ≤ b.size
      · -- This block fits.
        rcases tryAlloc_refines ⟨rfl, hh, hrest⟩ ht.2 (by omega) (by omega)
          hb.1 hb.2 with ⟨m', htry, hl', hframe⟩
        have hptr : b.ptr ≠ 0 := by simp only [Block.ptr, HEADER_SIZE]; omega
        rw [firstFit, if_pos hb, Option.getD_some]
        refine ⟨m', ?_, hl', hframe.on (Or.inl haddr.ge)⟩
        simp only [search, if_neg hne, htry]
        rw [if_pos hptr]
      · -- Passed over: the rest of the list decides.
        have hlo' : lo ≤ b.stop := by simp only [Block.stop]; omega
        rcases ih hrest ht.2 (Nat.le_trans hlo hlo') (Nat.lt_of_succ_lt_succ hf) with
          ⟨m', hs', hl', hframe⟩
        have hrest' : (firstFit size (b :: post)).getD (b :: post, 0) =
            (b :: ((firstFit size post).getD (post, 0)).1,
              ((firstFit size post).getD (post, 0)).2) := by
          rw [firstFit, if_neg hb]
          cases firstFit size post <;> rfl
        rw [hrest']
        refine ⟨m', ?_, ?_, agreeOn_mono hframe (Nat.le_refl _) hlo'⟩
        · simp only [search, if_neg hne, tryAlloc_skip hh hb]
          rw [if_neg (by decide)]
          exact hs'
        · exact lseg_cons (agreeOn_mono hframe (Nat.zero_le _) b.header_le) hh hl'

/-! ### Coalescing -/

/-- Merging two neighbouring free blocks rewrites the first one's header so
    that it covers both. -/
theorem merge_refines {rest : List Block} (hl : LSeg m b.addr (b :: c :: rest) 0)
    (ht : Tiles b.addr (b :: c :: rest) hi) (hhi : hi ≤ 2 ^ 32) (hb : b.free = true) :
    let m1 := setSize m b.addr (u32 (sizeAt m b.addr + u32 (HEADER_SIZE + sizeAt m c.addr)))
    let m2 := setNext m1 b.addr (nextAt m1 (nextAt m1 b.addr))
    LSeg m2 b.addr (b.join c :: rest) 0 ∧ AgreeOff m m2 b.addr (b.addr + HEADER_SIZE) := by
  intro m1 m2
  rcases hl with ⟨_, hhb, hcaddr, hhc, hrest⟩
  have hstop : c.addr = b.stop := ht.2.1
  have hcle := tiles_le ht.2.2
  simp only [Block.stop, HEADER_SIZE] at hstop hcle
  -- The second header is not touched by resizing the first.
  have hsize := (fields_refl m b.addr).setSize
    (u32 (sizeAt m b.addr + u32 (HEADER_SIZE + sizeAt m c.addr)))
  have hc1 : nextAt m1 c.addr = nextAt m c.addr :=
    (fields_congr (hsize.frame.on (Or.inr (by simp only [HEADER_SIZE]; omega)))).2.2.symm
  have hb1 : nextAt m1 b.addr = c.addr := hsize.next.trans hcaddr
  have hw : Writes m m2 (b.join c) (nextAt m c.addr) := by
    have h := hsize.setNext (nextAt m1 (nextAt m1 b.addr))
    refine ⟨⟨h.size.trans ?_, h.free.trans ?_⟩, h.next.trans ?_, h.frame⟩
    · simp only [Block.join, hhb.1, hhc.1, u32, HEADER_SIZE]
      omega
    · rw [hhb.2, if_pos hb]
      rfl
    · rw [hb1, hc1]
      exact Nat.mod_eq_of_lt (load_lt _ _ 8)
  rw [hcaddr] at hrest
  refine ⟨hw.cons ht.2.2 ?_ hrest, hw.frame⟩
  simp only [Block.join, Block.stop, HEADER_SIZE]
  omega

/-- The coalescing walk glues the list. Each turn either merges, which makes
    the list shorter, or moves on, so the bound is never reached. -/
theorem coalesce_refines {f cur : Nat} (hl : LSeg m cur bs 0) (ht : Tiles lo bs hi) (hlo : 0 < lo)
    (hhi : hi ≤ 2 ^ 32) (hf : bs.length < f) :
    ∃ m', coalesce f m cur = some m' ∧ LSeg m' cur (glue bs) 0 ∧ AgreeOn m m' 0 lo := by
  induction f generalizing bs m cur lo with
  | zero => omega
  | succ f ih =>
    cases bs with
    | nil =>
      have hcur : cur = 0 := hl
      exact ⟨m, by simp only [coalesce, hcur, if_true], hl, agreeOn_refl _ _ _⟩
    | cons b post =>
      rcases hl with ⟨rfl, hh, hrest⟩
      have haddr : b.addr = lo := ht.1
      have hne : b.addr ≠ 0 := by omega
      -- One step past a block that stays as it is.
      have hskip : glue (b :: post) = b :: glue post →
          coalesce (f + 1) m b.addr = coalesce f m (nextAt m b.addr) →
          ∃ m', coalesce (f + 1) m b.addr = some m' ∧ LSeg m' b.addr (glue (b :: post)) 0 ∧
            AgreeOn m m' 0 lo := by
        intro hglue hstep
        have hlo' : lo ≤ b.stop := by simp only [Block.stop]; omega
        rcases ih hrest ht.2 (Nat.lt_of_lt_of_le hlo hlo') (Nat.lt_of_succ_lt_succ hf) with
          ⟨m', hc, hl', hframe⟩
        refine ⟨m', by rw [hstep]; exact hc, ?_, agreeOn_mono hframe (Nat.le_refl _) hlo'⟩
        rw [hglue]
        exact lseg_cons (agreeOn_mono hframe (Nat.zero_le _) b.header_le) hh hl'
      cases post with
      | nil =>
        have hnx : nextAt m b.addr = 0 := hrest
        refine hskip rfl ?_
        simp only [coalesce, if_neg hne]
        rw [if_neg (by rw [hnx]; simp only [ne_eq, not_true_eq_false, false_and, and_false,
          not_false_eq_true])]
      | cons c rest =>
        have hnx : nextAt m b.addr = c.addr := hrest.1
        have hstop : c.addr = b.stop := ht.2.1
        have hcle := tiles_le ht.2.2
        by_cases hbc : b.free = true ∧ c.free = true
        · -- Both free and adjacent: merge and stay.
          have hadj : b.addr + u32 (HEADER_SIZE + sizeAt m b.addr) = c.addr := by
            rw [hh.1, hstop]
            simp only [Block.stop, u32, HEADER_SIZE] at hstop hcle ⊢
            omega
          have hcond : isFreeAt m b.addr ≠ 0 ∧ nextAt m b.addr ≠ 0 ∧
              isFreeAt m (nextAt m b.addr) ≠ 0 ∧
              b.addr + u32 (HEADER_SIZE + sizeAt m b.addr) = nextAt m b.addr := by
            rw [hnx]
            refine ⟨(headerAt_free hh).mpr hbc.1, ?_, (headerAt_free hrest.2.1).mpr hbc.2,
              hadj⟩
            rw [hstop]
            omega
          rcases merge_refines ⟨rfl, hh, hrest⟩ (by rw [haddr]; exact ht) hhi hbc.1 with
            ⟨hl2, hframe2⟩
          rw [← hnx] at hl2 hframe2
          have ht2 : Tiles lo (b.join c :: rest) hi := by
            refine ⟨haddr, ?_⟩
            rw [join_stop hstop]
            exact ht.2.2
          rcases ih hl2 ht2 hlo (Nat.lt_of_succ_lt_succ hf) with ⟨m', hc, hl', hframe⟩
          refine ⟨m', ?_, ?_, agreeOn_trans (hframe2.on (Or.inl haddr.ge)) hframe⟩
          · simp only [coalesce, if_neg hne]
            rw [if_pos hcond]
            exact hc
          · rw [glue_cons_cons_free b c rest hbc.1 hbc.2]
            exact hl'
        · refine hskip (glue_cons_cons_keep b c rest hbc) ?_
          simp only [coalesce, if_neg hne]
          rw [if_neg]
          rintro ⟨h1, _, h3, _⟩
          rw [hnx] at h3
          exact hbc ⟨(headerAt_free hh).mp h1, (headerAt_free hrest.2.1).mp h3⟩

/-! ### Growing -/

theorem lastBlock_refines {f : Nat} (hl : LSeg m p (bs ++ [b]) 0) (ht : Tiles lo (bs ++ [b]) hi)
    (hlo : 0 < lo) (hf : bs.length < f) : lastBlock m f p = some b.addr := by
  induction bs generalizing f p lo with
  | nil =>
    rcases hl with ⟨rfl, _, hnx⟩
    obtain ⟨f, rfl⟩ : ∃ g, f = g + 1 := ⟨f - 1, by omega⟩
    have hnx : nextAt m b.addr = 0 := hnx
    simp only [lastBlock, hnx, if_true]
  | cons c cs ih =>
    rcases hl with ⟨rfl, _, hrest⟩
    obtain ⟨f, rfl⟩ : ∃ g, f = g + 1 := ⟨f - 1, by omega⟩
    have hstop : 0 < c.stop := by
      have haddr := ht.1
      simp only [Block.stop]
      omega
    have hne : nextAt m c.addr ≠ 0 := by
      rcases lseg_start ht.2 hrest with ⟨hnil, _⟩ | ⟨_, hlo'⟩
      · exact absurd hnil (List.append_ne_nil_of_right_ne_nil _ (List.cons_ne_nil _ _))
      · omega
    simp only [lastBlock, if_neg hne]
    exact ih hrest ht.2 hstop (Nat.lt_of_succ_lt_succ hf)

/-- Appending a block: the last header's `next` is the only field changed. -/
theorem lseg_concat (hl : LSeg m p (bs ++ [b]) 0) (ht : Tiles lo (bs ++ [b]) c.addr)
    (hc : LSeg m c.addr [c] 0) (hlt : c.addr < 2 ^ 64) :
    LSeg (setNext m b.addr c.addr) p ((bs ++ [b]) ++ [c]) 0 := by
  rcases lseg_append.mp hl with ⟨_, hbs, rfl, hh, _⟩
  rcases tiles_append.mp ht with ⟨_, htbs, rfl, hbstop⟩
  have hw : Writes m (setNext m b.addr c.addr) b c.addr := by
    have h := (fields_refl m b.addr).setNext c.addr
    rw [Nat.mod_eq_of_lt hlt] at h
    exact ⟨⟨h.size.trans hh.1, h.free.trans hh.2⟩, h.next, h.frame⟩
  rw [List.append_assoc]
  refine lseg_append.mpr ⟨b.addr, ?_, ?_⟩
  · exact lseg_frame htbs (hw.frame.on (Or.inl (Nat.le_refl _))) hbs
  · exact hw.cons (show Tiles c.addr [c] c.stop from ⟨rfl, rfl⟩) (hbstop ▸ b.header_le) hc

end Heap

/-- The heap state represents the abstract heap: the list from `HEAP_HEAD`
    reads off its blocks, the page counts agree, and it is sound. -/
structure HeapRep (h : Heap) (a : Blocks) : Prop where
  list : Heap.LSeg h.mem h.head a.blocks 0
  pages : h.pages = a.pages
  ok : a.Ok

namespace Heap

variable {a : Blocks} {h : Heap}

theorem top_le (h : a.Ok) : a.top ≤ 0x4500000 := by
  have hc := h.ceiling
  simp only [Blocks.top, HEAP_START, VMM_PAGE_SIZE, HEAP_MAX_PAGES] at hc ⊢
  omega

/-- The loops' bound is larger than the number of blocks. -/
theorem length_lt_loopBound (h : a.Ok) : a.blocks.length < loopBound a.pages := by
  have hlen := tiles_length h.tiles
  simp only [Blocks.top, HEAP_START, VMM_PAGE_SIZE, HEADER_SIZE, loopBound] at hlen ⊢
  omega

/-- Growing refines `Blocks.expand`. -/
theorem expandHeap_refines (hr : HeapRep h a) (phys : Nat → Nat) (n : Nat) :
    ∃ h', expandHeap phys n h = some (h', (a.expand phys n).2) ∧
      HeapRep h' (a.expand phys n).1 := by
  have hok := Blocks.expand_ok phys n a hr.ok
  have hp := hr.pages
  unfold expandHeap Blocks.expand at *
  rw [hp]
  by_cases h1 : a.pages + n > HEAP_MAX_PAGES
  · rw [if_pos h1, if_pos h1]
    exact ⟨h, rfl, hr⟩
  rw [if_neg h1] at hok ⊢
  rw [if_neg h1]
  by_cases h2 : mapPages phys 0 n = 0
  · simp only [if_pos h2]
    exact ⟨h, rfl, hr⟩
  rw [if_neg h2] at hok ⊢
  simp only [if_neg h2]
  set mapped := mapPages phys 0 n with hmapped
  -- The new block and its header, written past the old top.
  have htop : HEAP_START + a.pages * VMM_PAGE_SIZE = a.top := rfl
  rw [htop]
  set c : Block := { addr := a.top, size := mapped * VMM_PAGE_SIZE - HEADER_SIZE, free := true }
  have htle := top_le hr.ok
  have hpages : mapped * VMM_PAGE_SIZE < 2 ^ 32 := by
    have := hok.ceiling
    simp only [Blocks.grown, HEAP_MAX_PAGES, VMM_PAGE_SIZE] at this ⊢
    omega
  rw [u32, Nat.mod_eq_of_lt (Nat.lt_of_le_of_lt (Nat.sub_le _ _) hpages)]
  set m3 := setNext (setIsFree (setSize h.mem a.top (mapped * VMM_PAGE_SIZE - HEADER_SIZE)) a.top 1)
    a.top 0
  have hw : Writes h.mem m3 c 0 :=
    writes_new h.mem a.top (Nat.lt_of_le_of_lt (Nat.sub_le _ _) hpages) (by decide)
  have hc : LSeg m3 a.top [c] 0 :=
    hw.cons (show Tiles c.stop [] c.stop from rfl) c.header_le rfl
  have hold : LSeg m3 h.head a.blocks 0 :=
    lseg_frame hr.ok.tiles (hw.frame.on (Or.inl (Nat.le_refl _))) hr.list
  by_cases hhead : h.head = 0
  · -- The first growth: the list is empty and the new block is its head.
    rw [if_pos hhead]
    have hnil : a.blocks = [] := by
      rcases lseg_start hr.ok.tiles hr.list with ⟨hnil, _⟩ | ⟨_, hlo⟩
      · exact hnil
      · simp only [HEAP_START] at hlo; omega
    refine ⟨_, rfl, ⟨?_, rfl, hok⟩⟩
    simp only [Blocks.grown, hnil, List.nil_append]
    exact hc
  · rw [if_neg hhead]
    have hne : a.blocks ≠ [] := by
      intro hnil
      have hl := hr.list
      rw [hnil] at hl
      exact hhead hl
    obtain ⟨bs, b, hbs⟩ : ∃ bs b, a.blocks = bs ++ [b] :=
      ⟨_, _, (List.dropLast_concat_getLast hne).symm⟩
    have hlast : lastBlock m3 (loopBound (a.pages + mapped)) h.head = some b.addr := by
      refine lastBlock_refines (by rw [← hbs]; exact hold) (by rw [← hbs]; exact hr.ok.tiles)
        (by simp only [HEAP_START]; omega) ?_
      have hlen := length_lt_loopBound hr.ok
      rw [hbs, List.length_append, List.length_singleton] at hlen
      simp only [loopBound, VMM_PAGE_SIZE, HEADER_SIZE] at hlen ⊢
      omega
    simp only [hlast, Option.map_some]
    refine ⟨_, rfl, ⟨?_, rfl, hok⟩⟩
    simp only [Blocks.grown, hbs]
    have ht : Tiles HEAP_START (bs ++ [b]) c.addr := by rw [← hbs]; exact hr.ok.tiles
    exact lseg_concat (by rw [← hbs]; exact hold) ht hc (by simp only [c]; omega)

/-! ### The public interface -/

theorem init_refines (phys : Nat → Nat) (m : Mem) :
    ∃ h, init phys m = some h ∧
      HeapRep h (Blocks.expand phys HEAP_INITIAL_PAGES { blocks := [], pages := 0 }).1 := by
  have hr : HeapRep { mem := m, head := 0, pages := 0 } { blocks := [], pages := 0 } :=
    ⟨rfl, rfl, rfl, List.forall_mem_nil _, Nat.zero_le _⟩
  rcases expandHeap_refines hr phys HEAP_INITIAL_PAGES with ⟨h, he, hrep⟩
  exact ⟨h, by simp only [init, he, Option.map_some], hrep⟩

/-- First fit over the whole heap. -/
theorem searchHeap_refines (hr : HeapRep h a) {size : Nat} (hsize : size % 8 = 0) :
    ∃ h', searchHeap size h = some (h', (a.search size).2) ∧
      HeapRep h' (a.search size).1 := by
  have htle := top_le hr.ok
  rcases search_refines size (f := loopBound h.pages) hr.list hr.ok.tiles
    (by simp only [HEADER_SIZE, HEAP_START]; omega) (by omega)
    (by rw [hr.pages]; exact length_lt_loopBound hr.ok) with ⟨m', hs, hl, _⟩
  have hok := Blocks.search_ok hsize hr.ok
  have hsearch : a.search size = ({ a with blocks := ((firstFit size a.blocks).getD
      (a.blocks, 0)).1 }, ((firstFit size a.blocks).getD (a.blocks, 0)).2) := by
    rw [Blocks.search]
    cases firstFit size a.blocks <;> rfl
  rw [hsearch] at hok ⊢
  refine ⟨{ h with mem := m' }, ?_, ⟨hl, hr.pages, hok⟩⟩
  rw [searchHeap, hs, Option.map_some]

theorem allocAligned_refines (hr : HeapRep h a) (phys : Nat → Nat) {size : Nat} (hs : size % 8 = 0)
    (n : Nat) :
    ∃ h', allocAligned phys size n h = some (h', (a.allocAligned phys size n).2) ∧
      HeapRep h' (a.allocAligned phys size n).1 := by
  unfold allocAligned Blocks.allocAligned
  rcases searchHeap_refines hr hs with ⟨h1, hs1, hr1⟩
  rw [hs1, Option.bind_some]
  by_cases hp : (a.search size).2 ≠ 0
  · rw [if_pos hp, if_pos hp]
    exact ⟨h1, rfl, hr1⟩
  rw [if_neg hp, if_neg hp]
  -- A failed search leaves the heap as it was.
  have hsame : (a.search size).1 = a := by
    rcases Blocks.search_cases size a with he | ⟨_, _, _, hne, he⟩
    · rw [he]
    · rw [he] at hp
      exact absurd hne hp
  rw [hsame] at hr1
  rcases expandHeap_refines hr1 phys n with ⟨h2, hs2, hr2⟩
  rw [hs2, Option.bind_some]
  by_cases hg : (a.expand phys n).2 = false
  · rw [if_pos hg, if_pos hg]
    exact ⟨h2, rfl, hr2⟩
  · rw [if_neg hg, if_neg hg]
    exact searchHeap_refines hr2 hs

/-- `kmalloc` always returns, with what `Blocks.alloc` returns. -/
theorem kmalloc_refines (hr : HeapRep h a) (phys : Nat → Nat) (size : Nat) :
    ∃ h', kmalloc phys size h = some (h', (a.alloc phys size).2) ∧
      HeapRep h' (a.alloc phys size).1 := by
  unfold kmalloc Blocks.alloc
  by_cases hz : size = 0
  · rw [if_pos hz, if_pos hz]
    exact ⟨h, rfl, hr⟩
  · rw [if_neg hz, if_neg hz]
    exact allocAligned_refines hr phys (alignSize_mod size) _

/-- Marking the block of a live pointer changes one flag of the list. -/
theorem setIsFree_refines {m : Mem} {bs : List Block} {p lo hi cur : Nat}
    (hl : LSeg m cur bs 0) (ht : Tiles lo bs hi) (hp : p ∈ livePtrs bs) :
    LSeg (setIsFree m (p - HEADER_SIZE) 1) cur (release p bs) 0 := by
  rcases mem_livePtrs.mp hp with ⟨b, hb, _, rfl⟩
  have hhdr : b.ptr - HEADER_SIZE = b.addr := by simp only [Block.ptr]; omega
  rw [hhdr]
  rcases List.append_of_mem hb with ⟨pre, post, rfl⟩
  rcases lseg_append.mp hl with ⟨r, hpre, ⟨rfl, hh, hpost⟩⟩
  rcases tiles_append.mp ht with ⟨mid, htpre, htb, htpost⟩
  -- No other block has this pointer.
  have hrel : release b.ptr (pre ++ b :: post) = pre ++ { b with free := true } :: post := by
    refine (release_middle (tiles_ptr_inj ht) [b]).trans ?_
    rw [release, List.map_singleton, if_pos rfl, List.singleton_append]
  have hw := writes_flag hh true
  rw [hrel]
  refine lseg_append.mpr ⟨b.addr, ?_, hw.cons htpost b.header_le hpost⟩
  exact lseg_frame htpre (hw.frame.on (Or.inl htb.ge)) hpre

/-- `kfree` of a live pointer always returns, having done `Blocks.free`. -/
theorem kfree_refines (hr : HeapRep h a) {p : Nat} (hp : p ∈ livePtrs a.blocks) :
    ∃ h', kfree p h = some h' ∧ HeapRep h' (a.free p) := by
  rcases mem_livePtrs.mp hp with ⟨b, hb, hfree, hbp⟩
  have hp0 : p ≠ 0 := by
    rw [← hbp]
    simp only [Block.ptr, HEADER_SIZE]
    omega
  have hhdr : p - HEADER_SIZE = b.addr := by rw [← hbp]; simp only [Block.ptr]; omega
  have htaken : isFreeAt h.mem (p - HEADER_SIZE) = 0 := by
    rw [hhdr, (lseg_header hr.list hb).2, hfree]
    rfl
  have hlen : (release p a.blocks).length < loopBound h.pages := by
    rw [release, List.length_map, hr.pages]
    exact length_lt_loopBound hr.ok
  have htle := top_le hr.ok
  rcases coalesce_refines (setIsFree_refines hr.list hr.ok.tiles hp)
    (fills_release p hr.ok.fills).1 (by simp only [HEAP_START]; omega) (by omega) hlen with
    ⟨m', hc, hl', _⟩
  refine ⟨{ h with mem := m' }, ?_, ⟨hl', hr.pages, Blocks.free_ok p a hr.ok⟩⟩
  simp only [kfree, if_neg hp0, htaken, ne_eq, not_true_eq_false, if_false, hc, Option.map_some]

end SysRust.Heap
