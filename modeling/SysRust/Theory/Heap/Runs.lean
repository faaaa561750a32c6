import SysRust.Lib.Machine
import SysRust.Theory.Heap.Refine

/-!
# Runs of the Heap

What holds of the kernel heap after any sequence of requests. A session is
the heap together with the pointers its clients hold: the ones `kmalloc`
returned that have not been passed to `kfree`. Besides allocating and
freeing, clients write to memory, inside the usable bytes of a block they
hold or outside of the heap altogether. The bytes above the heap are among
the latter, so nothing is assumed about what a freshly mapped page contains.

The structure theorem is about the header list in memory. It follows from
the refinement of the abstract heap: every session represents some abstract
heap whose live pointers are exactly the ones held, and the abstract
operations keep the tiling.

## Main definitions

* `Session`: A heap and the pointers held by its clients.
* `Request`: What clients do.
* `sessions`: The machine of all sessions.
* `Sound`: The structural property of a session with a given block list.

## Theorems

* `rep_step`: One request keeps the representation.
* `rep_reachable`: Every reachable session is represented.
* `reachable_kmalloc`, `reachable_kfree`, `reachable_borrow`: Sessions go on
  with the calls of other components.
* `sessions_progress`: Every allowed request is served.
* `heap_structure`: The block list of every reachable session is sound.
-/

namespace SysRust.Heap

/-- A heap and the pointers its clients hold. -/
structure Session where
  heap : Heap
  live : List Nat

/-- What clients do: allocate (with the page allocator's answers), free, or
    write one byte. -/
inductive Request where
  | kmalloc (size : Nat) (phys : Nat → Nat)
  | kfree (p : Nat)
  | write (a : Nat) (v : UInt8)

/-- The address just past the mapped heap. -/
def heapTop (h : Heap) : Nat := HEAP_START + h.pages * VMM_PAGE_SIZE

/-- `a` is a usable byte of a block that is held. -/
def Usable (s : Session) (a : Nat) : Prop :=
  ∃ p ∈ s.live, p ≤ a ∧ a < p + sizeAt s.heap.mem (p - HEADER_SIZE)

instance (s : Session) (a : Nat) : Decidable (Usable s a) :=
  inferInstanceAs (Decidable (∃ p ∈ s.live, p ≤ a ∧ a < p + sizeAt s.heap.mem (p - HEADER_SIZE)))

/-- Clients free only what they hold, and write only to usable bytes or
    outside of the heap. -/
def Allowed (s : Session) : Request → Prop
  | .kmalloc _ _ => True
  | .kfree p => p ∈ s.live
  | .write a _ => Usable s a ∨ a < HEAP_START ∨ heapTop s.heap ≤ a

instance (s : Session) : ∀ o, Decidable (Allowed s o)
  | .kmalloc _ _ => inferInstanceAs (Decidable True)
  | .kfree p => inferInstanceAs (Decidable (p ∈ s.live))
  | .write a _ => inferInstanceAs (Decidable (Usable s a ∨ a < HEAP_START ∨ heapTop s.heap ≤ a))

/-- Serve a request and keep track of what is held. -/
def serve (s : Session) : Request → Option Session
  | .kmalloc size phys => (kmalloc phys size s.heap).map (fun r =>
    { heap := r.1, live := if r.2 = 0 then s.live else r.2 :: s.live })
  | .kfree p => (kfree p s.heap).map (fun h => { heap := h, live := s.live.erase p })
  | .write a v => some { s with heap := { s.heap with mem := store s.heap.mem a 1 v.toNat } }

/-- All sessions that start with `heap::init` on arbitrary memory. -/
def sessions : Machine Session Request where
  start := fun s => ∃ phys m h, init phys m = some h ∧ s = { heap := h, live := [] }
  allows := Allowed
  exec := serve

instance (s : Session) (o : Request) : Decidable (sessions.allows s o) :=
  inferInstanceAs (Decidable (Allowed s o))

/-- The session represents the abstract heap, whose blocks in use are the
    ones held. -/
structure SessionRep (s : Session) (a : Blocks) : Prop where
  heap : HeapRep s.heap a
  live : s.live.Perm (livePtrs a.blocks)

/-! ### One request -/

theorem rep_init (phys : Nat → Nat) (m : Mem) :
    ∃ h a, init phys m = some h ∧ SessionRep { heap := h, live := [] } a := by
  rcases init_refines phys m with ⟨h, hi, hr⟩
  refine ⟨h, _, hi, hr, ?_⟩
  rw [Blocks.expand_livePtrs]
  exact List.Perm.refl _

variable {a : Blocks} {s : Session} {p x size : Nat} {h h' : Heap} {live : List Nat}

theorem rep_kmalloc (hs : SessionRep s a) (size : Nat) (phys : Nat → Nat) :
    ∃ t, serve s (.kmalloc size phys) = some t ∧ SessionRep t (a.alloc phys size).1 := by
  rcases kmalloc_refines hs.heap phys size with ⟨h', hk, hr⟩
  refine ⟨_, by simp only [serve, hk, Option.map_some]; rfl, hr, ?_⟩
  rcases Blocks.alloc_granted phys size a with ⟨hp, hsame⟩ | ⟨hp, hperm⟩
  · rw [if_pos hp, hsame]; exact hs.live
  · rw [if_neg hp]; exact (hs.live.cons _).trans hperm.symm

theorem rep_kfree (hs : SessionRep s a) (hp : p ∈ s.live) :
    ∃ t, serve s (.kfree p) = some t ∧ SessionRep t (a.free p) := by
  rcases kfree_refines hs.heap (hs.live.mem_iff.mp hp) with ⟨h', hk, hr⟩
  refine ⟨_, by simp only [serve, hk, Option.map_some]; rfl, hr, ?_⟩
  rw [Blocks.free_livePtrs p a hs.heap.ok]
  exact hs.live.erase p

/-- A byte that clients may write is no byte of a header. -/
theorem allowed_outside_headers (hs : SessionRep s a) {v : UInt8} (hx : Allowed s (.write x v)) :
    ∀ b ∈ a.blocks, x < b.addr ∨ b.addr + HEADER_SIZE ≤ x := by
  intro b hb
  have hbounds := tiles_bounds hs.heap.ok.tiles b hb
  rcases hx with ⟨p, hp, hlo, hhi⟩ | hlow | hhigh
  · -- The byte lies behind the header of its own block, before any later one.
    rcases mem_livePtrs.mp (hs.live.mem_iff.mp hp) with ⟨c, hc, _, rfl⟩
    have hsize := (lseg_header hs.heap.list hc).1
    have hhdr : c.ptr - HEADER_SIZE = c.addr := by simp only [Block.ptr]; omega
    rw [hhdr, hsize] at hhi
    have hapart := tiles_apart hs.heap.ok.tiles hb hc
    simp only [Block.ptr, Block.stop] at hlo hhi hapart
    rcases hapart with rfl | h | h <;> omega
  · omega
  · simp only [heapTop, hs.heap.pages] at hhigh
    simp only [Blocks.top, Block.stop] at hbounds
    omega

theorem rep_write (hs : SessionRep s a) {v : UInt8} (hx : Allowed s (.write x v)) :
    ∃ t, serve s (.write x v) = some t ∧ SessionRep t a := by
  refine ⟨_, rfl, ⟨?_, hs.heap.pages, hs.heap.ok⟩, hs.live⟩
  refine lseg_congr (fun b hb => ?_) hs.heap.list
  have hout := allowed_outside_headers hs hx b hb
  exact (agreeOff_store s.heap.mem x 1 v.toNat).on (by omega)

/-- One allowed request is served and keeps the representation. -/
theorem rep_step (hs : SessionRep s a) {o : Request} (ho : Allowed s o) :
    ∃ t a', serve s o = some t ∧ SessionRep t a' := by
  cases o with
  | kmalloc size phys =>
    rcases rep_kmalloc hs size phys with ⟨t, ht, hr⟩
    exact ⟨t, _, ht, hr⟩
  | kfree p =>
    rcases rep_kfree hs ho with ⟨t, ht, hr⟩
    exact ⟨t, _, ht, hr⟩
  | write x v =>
    rcases rep_write hs ho with ⟨t, ht, hr⟩
    exact ⟨t, a, ht, hr⟩

/-! ### Whole runs -/

/-- Every reachable session represents an abstract heap. -/
theorem rep_reachable (hs : sessions.Reachable s) : ∃ a, SessionRep s a := by
  refine Machine.Reachable.invariant (fun s => ∃ a, SessionRep s a) ?_ ?_ hs
  · rintro s ⟨phys, m, h, hi, rfl⟩
    rcases rep_init phys m with ⟨h', a, hi', hr⟩
    rw [hi, Option.some.injEq] at hi'
    exact ⟨a, hi' ▸ hr⟩
  · rintro s t o ⟨a, hr⟩ ho he
    rcases rep_step hr ho with ⟨t', a', he', hr'⟩
    have htt : some t = some t' := he.symm.trans he'
    exact ⟨a', Option.some.inj htt ▸ hr'⟩

/-! ### Calls made by other components -/

variable {phys : Nat → Nat}

theorem reachable_init {m : Mem} (hi : init phys m = some h) :
    sessions.Reachable { heap := h, live := [] } :=
  Machine.Reachable.start _ ⟨phys, m, h, hi, rfl⟩

theorem reachable_kmalloc (hs : sessions.Reachable { heap := h, live := live })
    (hk : kmalloc phys size h = some (h', p)) :
    sessions.Reachable { heap := h', live := if p = 0 then live else p :: live } := by
  refine Machine.Reachable.step _ _ (.kmalloc size phys) hs trivial ?_
  simp only [sessions, serve, hk, Option.map_some]

theorem reachable_kfree (hs : sessions.Reachable { heap := h, live := p :: live })
    (hf : kfree p h = some h') : sessions.Reachable { heap := h', live := live } := by
  refine Machine.Reachable.step _ _ (.kfree p) hs List.mem_cons_self ?_
  simp only [sessions, serve, hf, Option.map_some, List.erase_cons_head]

/-- A block that is taken and given back leaves what is held as it was. -/
theorem reachable_borrow {h1 h2 : Heap} (hs : sessions.Reachable { heap := h, live := live })
    (hk : kmalloc phys size h = some (h1, p)) (hp : p ≠ 0) (hf : kfree p h1 = some h2) :
    sessions.Reachable { heap := h2, live := live } := by
  have hheld := reachable_kmalloc hs hk
  rw [if_neg hp] at hheld
  exact reachable_kfree hheld hf

/-- No request of a client is left without an answer. -/
theorem sessions_progress : sessions.Progresses := by
  intro s hs o ho
  rcases rep_reachable hs with ⟨a, hr⟩
  rcases rep_step hr ho with ⟨t, _, he, _⟩
  exact ⟨t, he⟩

/-- The block list `bs` of a session: it is the list from `HEAP_HEAD`, in
    strictly increasing address order, it tiles the mapped heap, its sizes
    are multiples of 8, and its blocks in use are the ones held, each held
    once. -/
structure Sound (s : Session) (bs : List Block) : Prop where
  list : LSeg s.heap.mem s.heap.head bs 0
  sorted : bs.Pairwise (fun b c => b.addr < c.addr)
  tiles : Tiles HEAP_START bs (heapTop s.heap)
  aligned : ∀ b ∈ bs, b.size % 8 = 0
  ceiling : s.heap.pages ≤ HEAP_MAX_PAGES
  held : s.live.Perm (livePtrs bs)
  nodup : s.live.Nodup

theorem sound_of_rep (hs : SessionRep s a) : Sound s a.blocks where
  list := hs.heap.list
  sorted := tiles_sorted hs.heap.ok.tiles
  tiles := by
    have ht := hs.heap.ok.tiles
    simp only [Blocks.top, ← hs.heap.pages] at ht
    exact ht
  aligned := hs.heap.ok.aligned
  ceiling := by rw [hs.heap.pages]; exact hs.heap.ok.ceiling
  held := hs.live
  nodup := by
    refine hs.live.nodup_iff.mpr ((tiles_ptr_inj hs.heap.ok.tiles).sublist ?_)
    exact List.filter_sublist.map Block.ptr

/-- After every step of every run the block list is sound, and every request
    a client may make next is served. -/
theorem heap_structure {s : Session} (hs : sessions.Reachable s) :
    (∃ bs, Sound s bs) ∧ ∀ o, sessions.allows s o → ∃ t, sessions.exec s o = some t := by
  rcases rep_reachable hs with ⟨a, hr⟩
  exact ⟨⟨a.blocks, sound_of_rep hr⟩, sessions_progress s hs⟩

/-- One page is mapped, two blocks are carved out of it, and the first is
    freed: the second stays held. -/
theorem heap_structure_two_blocks :
    ∃ s, sessions.Reachable s ∧ s.live = [0x500028] ∧
      (∃ bs, Sound s bs) ∧ ∀ o, sessions.allows s o → ∃ t, sessions.exec s o = some t := by
  let phys : Nat → Nat := fun i => if i = 0 then 0x100000 else 0
  let ops : List Request := [.kmalloc 5 phys, .kmalloc 100 phys, .kfree 0x500010]
  have hlive : ((init phys (fun _ => 0)).bind (fun h =>
      sessions.run { heap := h, live := [] } ops)).map Session.live = some [0x500028] := by
    decide
  rcases Option.map_eq_some_iff.mp hlive with ⟨s, hs, hl⟩
  rcases Option.bind_eq_some_iff.mp hs with ⟨h, hi, hrun⟩
  have hr := Machine.reachable_run (reachable_init hi) hrun
  exact ⟨s, hr, hl, heap_structure hr⟩

end SysRust.Heap
