import SysRust.Core.Mmap
import SysRust.Theory.Vmm.Translate

/-!
# Failed Memory Calls

`sys_brk` and `sys_mmap` take their pages one by one and give up when there is
no frame for the next one. Nothing is undone then: the frames and tables of
the pages before stay allocated and mapped, and `MMAP_NEXT` has moved before
the first of them was asked for. So a call that fails leaves everything as it
was exactly if the first allocation already fails and the call does not move
`MMAP_NEXT`.

## Main definitions

* `Request`, `serve`: The two calls.
* `Fails`: A call that ran out of memory.
* `taken`: The pages that a call has allocated.
* `Untouched`: Pages, translations, the break and `MMAP_NEXT` are the same.
* `Exhausted`: The next allocation fails.

## Theorems

* `spends_growPages`, `spends_mapPages`: What the loops do to the supply.
* `failed_untouched_iff`: When a failed call leaves everything as it was.
* `mmap_leaks`: A request for two pages that keeps the first.
-/

namespace SysRust.Brk

open Vmm

/-- The pages in front of the rest of the supply, without the failures. -/
def taken (supply rest : List Nat) : List Nat :=
  (supply.take (supply.length - rest.length)).filter (· ≠ 0)

/-- The next allocation fails. -/
def Exhausted (supply : List Nat) : Prop := supply = [] ∨ supply.head? = some 0

/-- What a loop that found no frame leaves: memory and pages as they were if
    this was the first allocation, and otherwise a page less. -/
def GaveUp (supply : List Nat) (m : Mem) (g : Grown) : Prop :=
  (Exhausted supply ∧ g.mem = m ∧ taken supply g.supply = []) ∨
    (¬ Exhausted supply ∧ taken supply g.supply ≠ [])

/-- What a loop does to the supply. -/
structure Spends (supply : List Nat) (m : Mem) (g : Grown) : Prop where
  le : g.supply.length ≤ supply.length
  gaveUp : g.done = false → GaveUp supply m g

theorem spends_nil (m : Mem) : Spends [] m { mem := m, supply := [], done := false } :=
  ⟨Nat.le_refl _, fun _ => Or.inl ⟨Or.inl rfl, rfl, rfl⟩⟩

theorem spends_null (m : Mem) (rest : List Nat) :
    Spends (0 :: rest) m { mem := m, supply := rest, done := false } := by
  refine ⟨Nat.le_succ _, fun _ => Or.inl ⟨Or.inr rfl, rfl, ?_⟩⟩
  rw [taken, List.length_cons, Nat.add_sub_cancel_left]
  rfl

variable {rest supply : List Nat} {s t : Regions}

/-- A frame that was taken is not given back. -/
theorem spends_cons {phys : Nat} {m : Mem} {g : Grown} (h0 : phys ≠ 0)
    (hle : g.supply.length ≤ rest.length) : Spends (phys :: rest) m g := by
  refine ⟨hle.trans (Nat.le_succ _), fun _ => Or.inr ⟨?_, ?_⟩⟩
  · rintro (h | h)
    · exact List.cons_ne_nil _ _ h
    · exact h0 (Option.some.inj h)
  · rw [taken, List.length_cons, Nat.succ_sub hle, List.take_succ_cons, List.filter_cons,
      if_pos (decide_eq_true h0)]
    exact List.cons_ne_nil _ _

theorem spends_mapPages (pml4 n page : Nat) (supply : List Nat) (m : Mem) :
    Spends supply m (mapPages pml4 n page supply m) := by
  fun_induction mapPages pml4 n page supply m with
  | case1 => exact ⟨Nat.le_refl _, fun h => Bool.noConfusion h⟩
  | case2 => exact spends_nil _
  | case3 => exact spends_null _ _
  | case4 _ _ _ _ _ h0 =>
    rename_i ih
    exact spends_cons h0 (ih.le.trans (mapPage_supply _ _ _ _ _ _).1)

/-- As for `mapPages`; a page that the boot tables map costs nothing. -/
theorem spends_growPages (pml4 n page : Nat) (supply : List Nat) (m : Mem) :
    Spends supply m (growPages pml4 n page supply m) := by
  fun_induction growPages pml4 n page supply m with
  | case1 => exact ⟨Nat.le_refl _, fun h => Bool.noConfusion h⟩
  | case2 => exact spends_nil _
  | case3 => exact spends_null _ _
  | case4 _ _ _ _ _ _ h0 =>
    rename_i ih
    exact spends_cons h0 (ih.le.trans (mapPage_supply _ _ _ _ _ _).1)
  | case5 _ _ _ _ _ ih => exact ih

/-! ### The calls -/

inductive Request where
  | brk (addr : Nat)
  | mmap (addr len flags : Nat)

def serve (r : Request) (supply : List Nat) (s : Regions) : Option (Regions × Nat × List Nat) :=
  match r with
  | .brk addr =>
    let t := sysBrk addr supply s.toBreak
    some ({ s with toBreak := t.1 }, t.2)
  | .mmap addr len flags => sysMmap addr len flags supply s

/-- The call ran out of memory: what it returns says so. -/
def Fails (r : Request) (s : Regions) (ret : Nat) : Prop :=
  match r with
  | .brk addr => s.currentBrk < addr ∧ ret = s.currentBrk
  | .mmap _ _ _ => ret = ENOMEM

/-- No page is taken, and the translations, for the kernel and for the
    processor, the break and `MMAP_NEXT` are the same. -/
structure Untouched (supply : List Nat) (s : Regions) (rest : List Nat) (t : Regions) : Prop where
  pages : taken supply rest = []
  kernel : ∀ virt, getPhysical t.pml4 virt t.mem = getPhysical s.pml4 virt s.mem
  hardware : ∀ virt, hwTranslate t.mem t.pml4 virt = hwTranslate s.mem s.pml4 virt
  brk : t.currentBrk = s.currentBrk
  next : t.mmapNext = s.mmapNext

/-- The call does not choose an address. -/
def Request.Settled : Request → Prop
  | .brk _ => True
  | .mmap addr _ flags => fixed addr flags = true

theorem untouched_iff {g : Grown} (next : Nat) (h : GaveUp supply s.mem g) :
    Untouched supply s g.supply { s with mem := g.mem, mmapNext := next } ↔
      Exhausted supply ∧ next = s.mmapNext := by
  rcases h with ⟨he, hm, ht⟩ | ⟨he, ht⟩
  · rw [hm]
    exact ⟨fun u => ⟨he, u.next⟩, fun u => ⟨ht, fun _ => rfl, fun _ => rfl, rfl, u.2⟩⟩
  · exact ⟨fun u => absurd u.pages ht, fun u => absurd u.1 he⟩

/-- A range is shorter than the address space, so `MMAP_NEXT` moves. -/
theorem next_ne {next len : Nat} (hlen : u64 (len + 0xFFF) / 0x1000 ≠ 0) :
    u64 (pageOf (u64 (next + 0xFFF)) + u64 (len + 0xFFF) / 0x1000 * 0x1000) ≠ next := by
  unfold u64 pageOf at *
  omega

/-- `-ENOMEM` is not a page. -/
theorem pageOf_ne_enomem (addr : Nat) : pageOf addr ≠ ENOMEM := by
  have hval : ENOMEM = 2 ^ 64 - 12 := by decide
  rw [hval, pageOf]
  omega

theorem serve_failed {r : Request} {ret : Nat} (h : serve r supply s = some (t, ret, rest))
    (hf : Fails r s ret) :
    ∃ g next, GaveUp supply s.mem g ∧ rest = g.supply ∧
      t = { s with mem := g.mem, mmapNext := next } ∧ (next = s.mmapNext ↔ r.Settled) := by
  cases r with
  | brk addr =>
    rcases hf with ⟨hlt, rfl⟩
    unfold serve sysBrk at h
    dsimp only at h
    rw [if_neg (Nat.ne_of_gt (Nat.zero_lt_of_lt hlt)), if_neg (Nat.lt_asymm hlt)] at h
    have hgrow := spends_growPages s.pml4 (pageCount s.currentBrk addr) (pageOf s.currentBrk)
      supply s.mem
    generalize growPages s.pml4 _ _ supply s.mem = g at h hgrow
    -- a call that succeeds returns the new break, which is not the old one
    have hmoved : addr ≠ s.currentBrk := Nat.ne_of_gt hlt
    split_ifs at h with hboot hdone
    · simp only [Option.some.injEq, Prod.mk.injEq] at h
      exact absurd h.2.1 hmoved
    · cases h
      exact ⟨g, s.mmapNext, hgrow.gaveUp (Bool.eq_false_iff.mpr hdone), rfl, rfl,
        iff_of_true rfl trivial⟩
    · simp only [Option.some.injEq, Prod.mk.injEq] at h
      exact absurd h.2.1 hmoved
  | mmap addr len flags =>
    unfold serve sysMmap at h
    dsimp only at h
    split_ifs at h with hlen hfix hdone hdone
    · cases h
      have hne : EINVAL ≠ ENOMEM := by decide
      exact absurd hf hne
    · rcases Option.map_eq_some_iff.mp h with ⟨m, _, hm⟩
      cases hm
      exact absurd hf (pageOf_ne_enomem _)
    · cases h
      exact ⟨_, _, (spends_mapPages _ _ _ _ _).gaveUp (Bool.eq_false_iff.mpr hdone), rfl, rfl,
        iff_of_true rfl hfix⟩
    · rcases Option.map_eq_some_iff.mp h with ⟨m, _, hm⟩
      cases hm
      exact absurd hf (pageOf_ne_enomem _)
    · cases h
      refine ⟨_, _, (spends_mapPages _ _ _ _ _).gaveUp (Bool.eq_false_iff.mpr hdone), rfl, rfl, ?_⟩
      refine iff_of_false (next_ne fun h0 => ?_) hfix
      rw [h0] at hdone
      exact hdone rfl

/-- A failed call leaves everything as it was exactly if there was no page at
    all and it had no address to choose. -/
theorem failed_untouched_iff {r : Request} {supply rest : List Nat} {s t : Regions} {ret : Nat}
    (h : serve r supply s = some (t, ret, rest)) (hf : Fails r s ret) :
    Untouched supply s rest t ↔ Exhausted supply ∧ r.Settled := by
  rcases serve_failed h hf with ⟨g, next, hgave, rfl, rfl, hnext⟩
  rw [untouched_iff next hgave, hnext]

/-- Empty tables, and the addresses of the kernel. -/
def noPages : Regions :=
  { mem := fun _ => 0, pml4 := 0x1000, currentBrk := 0x100000000, mmapNext := 0x200000000 }

theorem failed_untouched_brk :
    Untouched [] noPages [] noPages ↔ Exhausted [] ∧ (Request.brk 0x100001000).Settled :=
  @failed_untouched_iff (.brk 0x100001000) [] [] noPages noPages 0x100000000 rfl
    ⟨by decide, rfl⟩

/-- Two pages are asked for, and after the first one and its three tables
    there is none left. The call fails, but all four stay taken, the page
    stays mapped and `MMAP_NEXT` has moved. -/
theorem mmap_leaks :
    (serve (.mmap 0 0x2000 0) [0x201000, 0x202000, 0x203000, 0x204000] noPages).map
        (fun x => (x.2, taken [0x201000, 0x202000, 0x203000, 0x204000] x.2.2,
          getPhysical x.1.pml4 0x200000000 x.1.mem, x.1.mmapNext)) =
      some ((ENOMEM, []), [0x201000, 0x202000, 0x203000, 0x204000], 0x201000, 0x200002000) ∧
    getPhysical noPages.pml4 0x200000000 noPages.mem = 0 := by
  decide

end SysRust.Brk
