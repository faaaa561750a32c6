import SysRust.Theory.Heap.Reuse
import SysRust.Theory.Heap.Runs

/-!
# What Clients of the Heap Get

Two laws that callers of `kmalloc` and `kfree` take for granted.

Freeing leaves no two free blocks side by side, and it undoes the allocation
it belongs to: as long as the heap did not grow in between, the list of
blocks is exactly the one before the call. Both are facts about `glue`. A
list without free neighbours is a fixed point of it, and a block that was
cut in two is glued back to the size it had.

A pointer stands for as many bytes as were asked for, but only up to a size
of `2 ^ 32 - 8`. `kmalloc` narrows the size to 32 bits and rounds it up
without looking at the carry. From `2 ^ 32 - 7` on, what is searched for is
less than what was asked for, and as the heap never reaches such a size
every pointer handed out for it is short.

## Main definitions

* `Coalesced`: No two consecutive blocks are free.
* `Roomy`: A pointer with so many bytes of its own.
* `Servable`: The heap can hand out a block for the request.

## Theorems

* `coalesced_glue`, `glue_of_coalesced`: Gluing reaches its fixed points.
* `glue_release`: Releasing what first fit took restores the list.
* `kfree_coalesces`: Freeing coalesces completely and undoes allocation.
* `Blocks.alloc_servable`: Which requests can be served.
* `roomy_of_le`: A block that is large enough is one's own.
* `kmalloc_roomy_iff`: Which requests get what they asked for.
-/

namespace SysRust.Heap

/-- No two consecutive blocks are both free. -/
def Coalesced (bs : List Block) : Prop :=
  bs.IsChain (fun b c => ¬ (b.free = true ∧ c.free = true))

theorem coalesced_cons_cons (b c : Block) (bs : List Block) :
    Coalesced (b :: c :: bs) ↔ ¬ (b.free = true ∧ c.free = true) ∧ Coalesced (c :: bs) :=
  List.isChain_cons_cons

variable {bs : List Block}

/-- One block in front of a coalesced list either merges with its first
    block, which was free and so has no free neighbour, or stays apart. -/
theorem coalesced_absorb (b : Block) (h : Coalesced bs) : Coalesced (absorb b bs) := by
  cases bs with
  | nil => exact List.IsChain.singleton b
  | cons c cs =>
    rw [absorb]
    by_cases hf : b.free = true ∧ c.free = true
    · rw [if_pos hf]
      cases cs with
      | nil => exact List.IsChain.singleton _
      | cons d ds =>
        rw [coalesced_cons_cons] at h ⊢
        exact ⟨fun hd => h.1 ⟨hf.2, hd.2⟩, h.2⟩
    · rw [if_neg hf, coalesced_cons_cons]
      exact ⟨hf, h⟩

theorem coalesced_glue (bs : List Block) : Coalesced (glue bs) := by
  induction bs with
  | nil => exact List.IsChain.nil
  | cons b bs ih =>
    exact coalesced_absorb b ih

/-- A coalesced list has nothing to glue. -/
theorem glue_of_coalesced (h : Coalesced bs) : glue bs = bs := by
  induction bs with
  | nil => rfl
  | cons b bs ih =>
    cases bs with
    | nil => rfl
    | cons c cs =>
      rw [coalesced_cons_cons] at h
      rw [glue_cons_cons_keep b c cs h.1, ih h.2]

theorem glue_append (xs ys : List Block) : glue (xs ++ ys) = xs.foldr absorb (glue ys) :=
  List.foldr_append

/-- Releasing the block `place` handed out and gluing it to its remainder
    gives back the block it was cut from. -/
theorem glue_release_place {size : Nat} {b : Block} (hb : b.free = true) (post : List Block) :
    glue (release b.ptr (place size b) ++ post) = glue (b :: post) := by
  have hself : ∀ n, ({ addr := b.addr, size := n, free := false } : Block).ptr = b.ptr :=
    fun _ => rfl
  unfold place
  by_cases hs : size + HEADER_SIZE + MIN_SPLIT ≤ b.size
  · rw [if_pos hs]
    -- The remainder is free already, whatever its pointer.
    have hjoin : Block.join { addr := b.addr, size := size, free := true }
        { addr := b.addr + HEADER_SIZE + size, size := b.size - size - HEADER_SIZE,
          free := true } = b := by
      have hsize : size + HEADER_SIZE + (b.size - size - HEADER_SIZE) = b.size := by omega
      simp only [Block.join, hsize]
      rw [← hb]
    simp only [release, List.map_cons, List.map_nil, hself, if_true, ite_self, List.cons_append,
      List.nil_append]
    rw [glue_cons_cons_free _ _ _ rfl rfl, hjoin]
  · rw [if_neg hs]
    have hback : ({ addr := b.addr, size := b.size, free := true } : Block) = b := by rw [← hb]
    simp only [release, List.map_cons, List.map_nil, hself, if_true, List.cons_append,
      List.nil_append, hback]

/-- Releasing what first fit took, and gluing, restores a coalesced list. -/
theorem glue_release {size p : Nat} {bs' : List Block} (hn : (bs.map Block.ptr).Nodup)
    (hc : Coalesced bs) (h : firstFit size bs = some (bs', p)) : glue (release p bs') = bs := by
  rcases firstFit_split h with ⟨pre, b, post, rfl, rfl, hfree, _, rfl⟩
  rw [release_middle hn, glue_append, glue_release_place hfree, ← glue_append, glue_of_coalesced hc]

end Heap

namespace Blocks

open Heap

variable {a : Blocks} {size : Nat} {phys : Nat → Nat}

/-- An allocation that was granted without growing is a first fit of the
    blocks as they were. -/
theorem alloc_in_place (hp : (a.alloc phys size).2 ≠ 0)
    (hpages : (a.alloc phys size).1.pages = a.pages) :
    firstFit (alignSize size) a.blocks =
      some ((a.alloc phys size).1.blocks, (a.alloc phys size).2) := by
  unfold alloc at hp hpages ⊢
  by_cases hz : size = 0
  · rw [if_pos hz] at hp; exact absurd rfl hp
  rw [if_neg hz] at hp hpages ⊢
  unfold allocAligned at hp hpages ⊢
  rcases search_cases (alignSize size) a with he | ⟨bs, p, hf, hne, he⟩
  · -- Nothing fits: what is granted comes from a heap that has grown.
    have h0 : ¬ (a.search (alignSize size)).2 ≠ 0 := by rw [he]; exact fun h => h rfl
    rw [if_neg h0] at hp hpages
    rcases expand_cases phys (needPages (alignSize size)) a with hx | ⟨mapped, hpos, _, hx⟩
    · rw [hx, if_pos rfl] at hp; exact absurd rfl hp
    · rw [hx, if_neg Bool.noConfusion] at hpages
      have hkeep : ∀ c : Blocks, (c.search (alignSize size)).1.pages = c.pages := by
        intro c
        rcases search_cases (alignSize size) c with hc | ⟨_, _, _, _, hc⟩ <;> rw [hc]
      rw [hkeep] at hpages
      simp only [grown] at hpages
      omega
  · rw [he, if_pos hne]
    exact hf

/-- The heap can hand out a block for the request: one fits, or there is
    room to grow by the pages it takes. -/
def Servable (size : Nat) (a : Blocks) : Prop :=
  Fits (alignSize size) a.blocks ∨ a.pages + needPages (alignSize size) ≤ HEAP_MAX_PAGES

/-- A first fit is granted. -/
theorem search_of_fits (h : Fits size a.blocks) : (a.search size).2 ≠ 0 := by
  rcases firstFit_of_fits h with ⟨r, hr⟩
  rcases firstFit_split hr with ⟨_, b, _, _, _, _, _, hb⟩
  simp only [search, hr, hb, Block.ptr, HEADER_SIZE]
  omega

/-- What the search finds was free and large enough. -/
theorem fits_of_search (h : (a.search size).2 ≠ 0) : Fits size a.blocks := by
  rcases search_cases size a with he | ⟨bs, p, hf, _, _⟩
  · rw [he] at h; exact absurd rfl h
  · rcases firstFit_split hf with ⟨pre, b, post, hbs, _, hfree, hle, _⟩
    exact ⟨b, by rw [hbs]; exact List.mem_append_right _ List.mem_cons_self, hfree, hle⟩

/-- The new block of a growth by `needPages` holds the request. -/
theorem fits_grown (size : Nat) (a : Blocks) :
    Fits size (a.grown (needPages size)).blocks := by
  refine ⟨_, List.mem_append_right _ (List.mem_singleton_self _), rfl, ?_⟩
  simp only [needPages, VMM_PAGE_SIZE, HEADER_SIZE]
  omega

/-- A request is granted for some answers of the page allocator exactly if
    it is servable. -/
theorem alloc_servable (hpos : 0 < size) (a : Blocks) :
    (∃ phys, (a.alloc phys size).2 ≠ 0) ↔ a.Servable size := by
  have hz : size ≠ 0 := by omega
  constructor
  · rintro ⟨phys, hp⟩
    rw [alloc, if_neg hz, allocAligned] at hp
    by_cases h1 : (a.search (alignSize size)).2 ≠ 0
    · exact Or.inl (fits_of_search h1)
    rw [if_neg h1] at hp
    by_cases h2 : a.pages + needPages (alignSize size) > HEAP_MAX_PAGES
    · rw [expand, if_pos h2, if_pos rfl] at hp
      exact absurd rfl hp
    · exact Or.inr (by omega)
  · intro h
    refine ⟨fun _ => 1, ?_⟩
    rw [alloc, if_neg hz, allocAligned]
    by_cases h1 : (a.search (alignSize size)).2 ≠ 0
    · rw [if_pos h1]; exact h1
    rw [if_neg h1]
    rcases h with h | h
    · exact absurd (search_of_fits h) h1
    · -- Every page is mapped, so the new block is as large as it has to be.
      have hall := mapPages_all (fun _ => Nat.one_ne_zero) 0 (needPages (alignSize size))
      have hsome : needPages (alignSize size) ≠ 0 := by simp only [needPages]; omega
      have hgrown : a.expand (fun _ => 1) (needPages (alignSize size)) =
          (a.grown (needPages (alignSize size)), true) := by
        rw [expand, if_neg (by omega), hall, if_neg hsome]
      rw [hgrown, if_neg Bool.noConfusion]
      exact search_of_fits (fits_grown _ a)

end Blocks

namespace Heap

variable {bs : List Block}

/-- A sound session represents the heap of its blocks. -/
theorem rep_of_sound {s : Session} (h : Sound s bs) :
    SessionRep s { blocks := bs, pages := s.heap.pages } :=
  ⟨⟨h.list, rfl, ⟨h.tiles, h.aligned, h.ceiling⟩⟩, h.held⟩

variable {p size : Nat}

/-- What `kmalloc` did, read off the abstract heap. -/
theorem kmalloc_eq {h h' : Heap} {a : Blocks} (hr : HeapRep h a) {phys : Nat → Nat}
    (hk : kmalloc phys size h = some (h', p)) :
    p = (a.alloc phys size).2 ∧ HeapRep h' (a.alloc phys size).1 := by
  rcases kmalloc_refines hr phys size with ⟨h1, hk1, hr1⟩
  rw [hk, Option.some.injEq, Prod.mk.injEq] at hk1
  exact ⟨hk1.2, hk1.1 ▸ hr1⟩

/-- After every `kfree` of a held pointer no two consecutive blocks are free.
    From a session without free neighbours, an allocation that does not grow
    the heap is undone by the `kfree` of its result: the list of blocks is
    the same again. -/
theorem kfree_coalesces {s : Session} (hs : sessions.Reachable s) :
    (∀ p ∈ s.live, ∃ t bs, sessions.exec s (.kfree p) = some t ∧ Sound t bs ∧ Coalesced bs) ∧
      ∀ bs, Sound s bs → Coalesced bs → ∀ phys size h1 p,
        kmalloc phys size s.heap = some (h1, p) → p ≠ 0 → h1.pages = s.heap.pages →
        ∃ h2, kfree p h1 = some h2 ∧ Sound { heap := h2, live := s.live } bs := by
  constructor
  · intro p hp
    rcases rep_reachable hs with ⟨a, hr⟩
    rcases rep_kfree hr hp with ⟨t, ht, hrt⟩
    exact ⟨t, _, ht, sound_of_rep hrt, coalesced_glue _⟩
  · intro bs hb hc phys size h1 p hk hp hpages
    have hr := rep_of_sound hb
    generalize ha : ({ blocks := bs, pages := s.heap.pages } : Blocks) = a at hr
    have hbs : bs = a.blocks := by rw [← ha]
    rw [hbs] at hc ⊢
    rcases kmalloc_eq hr.heap hk with ⟨rfl, hr1⟩
    rcases kmalloc_kfree hr.heap hp with ⟨g1, h2, hg, hf, hr2⟩
    rw [hk, Option.some.injEq, Prod.mk.injEq] at hg
    rw [← hg.1] at hf
    have hsame : (a.alloc phys size).1.pages = a.pages := by
      rw [← hr1.pages, hpages, hr.heap.pages]
    have hblocks : glue (release (a.alloc phys size).2 (a.alloc phys size).1.blocks) = a.blocks :=
      glue_release (tiles_ptr_inj hr.heap.ok.tiles) hc (Blocks.alloc_in_place hp hsame)
    have hback : (a.alloc phys size).1.free (a.alloc phys size).2 = a := by
      rw [Blocks.free, hblocks, hsame]
    rw [hback] at hr2
    exact ⟨h2, hf, sound_of_rep ⟨hr2, hr.live⟩⟩

/-- Two blocks are carved out of one page and the first is freed. Asking for
    it again and freeing it again gives the same list. -/
theorem kfree_coalesces_first :
    ∃ s t bs h1 h2, sessions.Reachable s ∧ sessions.exec s (.kfree 0x500010) = some t ∧
      Sound t bs ∧ Coalesced bs ∧ kmalloc (fun _ => 0) 5 t.heap = some (h1, 0x500010) ∧
      kfree 0x500010 h1 = some h2 ∧ Sound { heap := h2, live := t.live } bs := by
  let phys : Nat → Nat := fun i => if i = 0 then 0x100000 else 0
  let ops : List Request := [.kmalloc 5 phys, .kmalloc 100 phys]
  have hrun : ((init phys (fun _ => 0)).bind (fun h =>
      sessions.run { heap := h, live := [] } ops)).bind (fun s =>
        (sessions.exec s (.kfree 0x500010)).bind (fun t =>
          (kmalloc (fun _ => 0) 5 t.heap).map (fun r =>
            (s.live, r.2, decide (r.1.pages = t.heap.pages))))) =
      some ([0x500028, 0x500010], 0x500010, true) := by
    decide
  rcases Option.bind_eq_some_iff.mp hrun with ⟨s, hs, hrest⟩
  rcases Option.bind_eq_some_iff.mp hs with ⟨h, hi, hops⟩
  rcases Option.bind_eq_some_iff.mp hrest with ⟨t, ht, hk⟩
  rcases Option.map_eq_some_iff.mp hk with ⟨⟨h1, p⟩, hk, hres⟩
  rw [Prod.mk.injEq, Prod.mk.injEq, decide_eq_true_eq] at hres
  rcases hres with ⟨hlive, rfl, hpages⟩
  have hr := Machine.reachable_run (reachable_init hi) hops
  have hmem : 0x500010 ∈ s.live := by rw [hlive]; decide
  rcases (kfree_coalesces hr).1 _ hmem with ⟨t', bs, ht', hsound, hc⟩
  have htt : t' = t := Option.some.inj (ht'.symm.trans ht)
  rw [htt] at hsound
  have hrt : sessions.Reachable t := Machine.Reachable.step _ _ (.kfree 0x500010) hr hmem ht
  rcases (kfree_coalesces hrt).2 bs hsound hc _ 5 h1 _ hk (by decide) hpages with ⟨h2, hf, hback⟩
  exact ⟨s, t, bs, h1, h2, hr, ht, hsound, hc, hk, hf, hback⟩

/-- `size` bytes from `p` on belong to the holder of `p`: its block in use
    has that many, they lie in the heap, and they meet no header and no
    other block in use. -/
def Roomy (t : Session) (p size : Nat) : Prop :=
  ∃ bs, Sound t bs ∧ (∃ b ∈ bs, b.ptr = p ∧ b.free = false ∧ size ≤ b.size) ∧
    HEAP_START ≤ p ∧ p + size ≤ heapTop t.heap ∧
    (∀ c ∈ bs, p + size ≤ c.addr ∨ c.ptr ≤ p) ∧
    ∀ c ∈ bs, c.free = false → c.ptr ≠ p → p + size ≤ c.ptr ∨ c.stop ≤ p

/-- A block in use that is large enough is one's own. -/
theorem roomy_of_le {t : Session} (ht : Sound t bs) {b : Block} (hb : b ∈ bs)
    (hused : b.free = false) (hle : size ≤ b.size) : Roomy t b.ptr size := by
  have hbounds := tiles_bounds ht.tiles b hb
  simp only [Block.stop] at hbounds
  refine ⟨bs, ht, ⟨b, hb, rfl, hused, hle⟩, ?_, ?_, fun c hc => ?_, fun c hc _ hne => ?_⟩
  · simp only [Block.ptr]; omega
  · simp only [Block.ptr]; omega
  · have hapart := tiles_apart ht.tiles hb hc
    simp only [Block.stop, Block.ptr] at hapart ⊢
    rcases hapart with rfl | h | h <;> omega
  · have hapart := tiles_apart ht.tiles hb hc
    simp only [Block.stop, Block.ptr] at hapart hne ⊢
    rcases hapart with rfl | h | h <;> omega

/-- Nobody has more bytes than the heap. -/
theorem Roomy.size_le {t : Session} (h : Roomy t p size) :
    size ≤ HEAP_MAX_PAGES * VMM_PAGE_SIZE := by
  rcases h with ⟨bs, ht, _, hlo, hhi, _⟩
  have hceil := ht.ceiling
  simp only [heapTop, HEAP_MAX_PAGES, VMM_PAGE_SIZE] at hhi hceil ⊢
  omega

/-- Below the wrap-around, rounding a size up does not lose any of it. -/
theorem le_alignSize (h : size ≤ 2 ^ 32 - 8) : size ≤ alignSize size := by
  simp only [alignSize, u32]
  omega

/-- The session after `kmalloc` returned `p`. -/
def held (s : Session) (h : Heap) (p : Nat) : Session where
  heap := h
  live := if p = 0 then s.live else p :: s.live

/-- In every reachable session, with its blocks `bs`: every pointer that
    `kmalloc size` can return stands for `size` bytes of its own exactly if
    the size is at most `2 ^ 32 - 8` or no pointer can be returned for it at
    all. -/
theorem kmalloc_roomy_iff {s : Session} (hs : sessions.Reachable s) :
    ∃ bs, Sound s bs ∧ ∀ size, 0 < size → size < 2 ^ 64 →
      ((∀ phys h p, kmalloc phys size s.heap = some (h, p) → p ≠ 0 → Roomy (held s h p) p size) ↔
        size ≤ 2 ^ 32 - 8 ∨
          ¬ Blocks.Servable size { blocks := bs, pages := s.heap.pages }) := by
  rcases heap_structure hs with ⟨⟨bs, hb⟩, _⟩
  have hr := rep_of_sound hb
  refine ⟨bs, hb, fun size hpos _ => ⟨fun hall => ?_, fun hok phys h p hk hp => ?_⟩⟩
  · -- A pointer that is returned for a larger size is short.
    by_contra hno
    rw [not_or, Classical.not_not] at hno
    rcases (Blocks.alloc_servable hpos _).mpr hno.2 with ⟨phys, hp⟩
    rcases kmalloc_refines hr.heap phys size with ⟨h, hk, _⟩
    have hle := (hall phys h _ hk hp).size_le
    simp only [HEAP_MAX_PAGES, VMM_PAGE_SIZE] at hle
    omega
  · rcases kmalloc_eq hr.heap hk with ⟨rfl, _⟩
    have hsize : size ≤ 2 ^ 32 - 8 := by
      rcases hok with hle | hno
      · exact hle
      · exact absurd ((Blocks.alloc_servable hpos _).mp ⟨phys, hp⟩) hno
    rcases rep_kmalloc hr size phys with ⟨t, ht, hrt⟩
    simp only [serve, hk, Option.map_some, Option.some.injEq] at ht
    rcases Blocks.alloc_firstFit hp with ⟨_, _, hf⟩
    rcases firstFit_used hf with ⟨b, hmem, hptr, hused, hle⟩
    have hroomy := roomy_of_le (sound_of_rep hrt) hmem hused
      (Nat.le_trans (le_alignSize hsize) hle)
    rw [hptr, ← ht] at hroomy
    exact hroomy

/-- A fresh heap of one page serves requests of 5 bytes in full. -/
theorem kmalloc_roomy_five :
    ∃ s bs, sessions.Reachable s ∧ Sound s bs ∧
      ((∀ phys h p, kmalloc phys 5 s.heap = some (h, p) → p ≠ 0 → Roomy (held s h p) p 5) ↔
        5 ≤ 2 ^ 32 - 8 ∨ ¬ Blocks.Servable 5 { blocks := bs, pages := s.heap.pages }) := by
  rcases init_refines (fun i => if i = 0 then 0x100000 else 0) (fun _ => 0) with ⟨h, hi, _⟩
  have hr := reachable_init hi
  rcases kmalloc_roomy_iff hr with ⟨bs, hb, hiff⟩
  exact ⟨_, bs, hr, hb, hiff 5 (by decide) (by decide)⟩

/-- Asking for 4 GB of a heap of one page succeeds: the size is zero in 32
    bits, and the block behind the pointer has no bytes at all. -/
theorem kmalloc_short :
    ∃ s h, sessions.Reachable s ∧
      kmalloc (fun _ => 0) (2 ^ 32) s.heap = some (h, 0x500010) ∧ sizeAt h.mem 0x500000 = 0 ∧
      ¬ Roomy (held s h 0x500010) 0x500010 (2 ^ 32) := by
  let phys : Nat → Nat := fun i => if i = 0 then 0x100000 else 0
  have hrun : (init phys (fun _ => 0)).bind (fun h =>
      (kmalloc (fun _ => 0) (2 ^ 32) h).map (fun r => (r.2, sizeAt r.1.mem 0x500000))) =
      some (0x500010, 0) := by
    decide
  rcases Option.bind_eq_some_iff.mp hrun with ⟨h, hi, hk⟩
  rcases Option.map_eq_some_iff.mp hk with ⟨⟨h1, p⟩, hk, hres⟩
  rw [Prod.mk.injEq] at hres
  rcases hres with ⟨rfl, hsize⟩
  refine ⟨{ heap := h, live := [] }, h1, reachable_init hi, hk,
    hsize, fun hroomy => ?_⟩
  have hle := hroomy.size_le
  exact absurd hle (by decide)

end SysRust.Heap
