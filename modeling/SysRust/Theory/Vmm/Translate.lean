import SysRust.Theory.Vmm.Tables

/-!
# Translation by the Tree of Page Tables

What the functions of `vmm.rs` and the hardware's walk do, in terms of the
entry of the last level that a virtual address leads to. Above the first
4 GB of the address space this entry decides everything: `getPhysical` and
the hardware translate by it, `mapPage` sets it and `unmapPage` clears it.
Below, the hardware stops at a 2 MB entry of the boot tables.

## Main definitions

* `ptPath`, `leafOf`: The place an address leads to, and the entry there.
* `High`: The address does not lead through a 2 MB entry.
* `mapped`: The entry that `mapPage` writes.
* `Arrives`, `Maps`: What an allocating walk and `mapPage` are to do.
* `ptOf`: The table that a reading walk arrives at.

## Theorems

* `mapPage_spec`, `unmapPage_spec`: What the operations change.
* `mapPage_low`: What `mapPage` does in the first 4 GB.
* `getPhysical_eq`: What `getPhysical` returns.
* `hwTranslate_high`, `hwTranslate_low`: What the hardware does.
-/

namespace SysRust.Vmm

/-- The path of the last-level table of an address. -/
def ptPath (virt : Nat) : Path := [pdIndex virt, pdptIndex virt, pml4Index virt]

/-- The entry of the last level an address leads to. -/
def leafOf (m : Mem) (T : Path → Option Nat) (virt : Nat) : Nat :=
  leafEntry m T (ptPath virt) (ptIndex virt)

/-- The address does not lead to one of the four directories of the boot
    tables, whose entries are 2 MB pages. -/
def High (virt : Nat) : Prop := ¬ (pml4Index virt = 0 ∧ pdptIndex virt < 4)

/-- The entry that `mapPage` writes. -/
def mapped (phys flags : Nat) : Nat := (phys &&& ADDR_MASK) ||| (flags &&& 0xFFF)

variable {p : Path} {i : Nat} {supply : List Nat}

section

variable {base : Nat} {m : Mem} {T : Path → Option Nat} {virt : Nat}

theorem bootLeaf_nil (i : Nat) : bootLeaf [] i = 0 := rfl

theorem bootLeaf_one (i4 i : Nat) : bootLeaf [i4] i = 0 :=
  bootLeaf_eq_zero (fun _ _ e => by simp only [List.cons.injEq, reduceCtorEq, and_false] at e) i

theorem bootLeaf_high (hv : High virt) (i : Nat) :
    bootLeaf [pdptIndex virt, pml4Index virt] i = 0 := by
  refine bootLeaf_eq_zero (fun g hg e => hv ?_) i
  simp only [List.cons.injEq, and_true] at e
  exact ⟨e.2, e.1 ▸ hg⟩

/-- Below a missing table there is none. -/
theorem below_none (h : Tables base m T) (hp : T p = none) (i : Nat) : T (i :: p) = none := by
  by_contra hne
  rcases Option.ne_none_iff_exists'.mp hne with ⟨t, ht⟩
  rcases (h.parent i p t ht).2 with ⟨s, hs⟩
  rw [hp] at hs
  exact Option.some_ne_none s hs.symm

theorem leafOf_none {m : Mem} (hp : T (ptPath virt) = none) : leafOf m T virt = 0 :=
  leafEntry_none hp _

/-- A walk of `mapPage` down to a path: the tree has grown, and
    the walk has arrived at the table of the path or failed for lack of a
    page. -/
def Arrives (base : Nat) (m : Mem) (T : Path → Option Nat) (supply : List Nat) (p : Path)
    (r : Walk) : Prop :=
  ∃ T', Grows base m T supply r.mem T' r.supply ∧ (r.next = 0 ∨ T' p = some r.next) ∧
    (r.next = 0 → AllocFailed supply r.supply)

/-- One level further. -/
theorem arrives_next {r : Walk} (ha : Arrives base m T supply p r) (hr : r.next ≠ 0)
    (hp : p.length < 3) (hi : i < 512) (hleaf : bootLeaf p i = 0) :
    Arrives base m T supply (i :: p) (walkOrAlloc r.mem r.next i r.supply) := by
  rcases ha with ⟨T1, hg1, hn1, _⟩
  rcases walkOrAlloc_grows hg1.tables (hn1.resolve_left hr) hp hi (fun _ => hleaf) hg1.fresh
    with ⟨T2, hg2, hn2, hk2⟩
  refine ⟨T2, grows_trans hg1 hg2, hn2, fun h0 => ?_⟩
  rcases hg1.used with ⟨u1, hu1, _⟩
  rcases hg2.used with ⟨u2, hu2, _⟩
  rw [hu1]
  exact allocFailed_of_tail (hk2 h0) ⟨u2, hu2⟩

/-- What `mapPage` is to do: grow the tree and set the entry of the address,
    or give up when the pages run out. -/
def Maps (base : Nat) (m : Mem) (T : Path → Option Nat) (supply : List Nat) (virt e : Nat)
    (out : Mem × List Nat) : Prop :=
  ∃ m' T', Grows base m T supply m' T' out.2 ∧
    ((out.1 = m' ∧ AllocFailed supply out.2) ∨
      ∃ t, T' (ptPath virt) = some t ∧ out.1 = setEntry m' t (ptIndex virt) e)

theorem maps_failed {r : Walk} {e : Nat} (ha : Arrives base m T supply p r) (hr : r.next = 0) :
    Maps base m T supply virt e (r.mem, r.supply) := by
  rcases ha with ⟨T', hg, _, hk⟩
  exact ⟨_, T', hg, Or.inl ⟨rfl, hk hr⟩⟩

/-- Mapping either fails for lack of pages, having at most grown the tree,
    or sets the entry of its address. -/
theorem mapPage_spec (h : Tables base m T) (hv : High virt) (phys flags : Nat)
    (hfresh : Fresh T supply) :
    Maps base m T supply virt (mapped phys flags) (mapPage base virt phys flags supply m) := by
  -- One level after the other; each may fail or hand its table to the next.
  have a1 := walkOrAlloc_grows h h.root (Nat.zero_lt_succ 2) (index_lt virt 39)
    (fun _ => bootLeaf_nil _) hfresh
  simp only [mapPage]
  split
  · next h1 => exact maps_failed a1 h1
  next h1 =>
  have a2 := arrives_next a1 h1 (show 1 < 3 by decide) (index_lt virt 30) (bootLeaf_one _ _)
  split
  · next h2 => exact maps_failed a2 h2
  next h2 =>
  have a3 := arrives_next a2 h2 (show 2 < 3 by decide) (index_lt virt 21) (bootLeaf_high hv _)
  split
  · next h3 => exact maps_failed a3 h3
  next h3 =>
  rcases a3 with ⟨T3, hg3, hn3, _⟩
  exact ⟨_, T3, hg3, Or.inr ⟨_, hn3.resolve_left h3, rfl⟩⟩

/-- A level takes at most one page. -/
theorem walkOrAlloc_supply (m : Mem) (t i : Nat) (supply : List Nat) :
    (walkOrAlloc m t i supply).supply.length ≤ supply.length ∧
      supply.length ≤ (walkOrAlloc m t i supply).supply.length + 1 := by
  unfold walkOrAlloc
  dsimp only
  split_ifs
  · exact ⟨Nat.le_refl _, Nat.le_succ _⟩
  · cases supply with
    | nil => exact ⟨Nat.le_refl _, Nat.zero_le _⟩
    | cons f rest =>
      dsimp only
      split_ifs <;> exact ⟨Nat.le_succ _, Nat.le_refl _⟩

/-- Three pages are enough for a call. -/
theorem mapPage_supply (base virt phys flags : Nat) (supply : List Nat) (m : Mem) :
    (mapPage base virt phys flags supply m).2.length ≤ supply.length ∧
      supply.length ≤ (mapPage base virt phys flags supply m).2.length + 3 := by
  have h1 := walkOrAlloc_supply m base (pml4Index virt) supply
  unfold mapPage
  dsimp only
  generalize walkOrAlloc m base (pml4Index virt) supply = r1 at h1 ⊢
  have h2 := walkOrAlloc_supply r1.mem r1.next (pdptIndex virt) r1.supply
  generalize walkOrAlloc r1.mem r1.next (pdptIndex virt) r1.supply = r2 at h2 ⊢
  have h3 := walkOrAlloc_supply r2.mem r2.next (pdIndex virt) r2.supply
  split_ifs <;> dsimp only <;> omega

/-- With more than three pages left no call meets a failure. -/
theorem not_allocFailed (base virt phys flags : Nat) (m : Mem) (hlen : 3 < supply.length)
    (h0 : 0 ∉ supply) : ¬ AllocFailed supply (mapPage base virt phys flags supply m).2 := by
  have hsup := mapPage_supply base virt phys flags supply m
  rintro (hnil | hmem)
  · rw [hnil, List.length_nil] at hsup
    omega
  · exact h0 (List.mem_of_mem_take hmem)

/-! ### Reading walks -/

/-- The last-level table that a reading walk arrives at, or null. -/
def ptOf (m : Mem) (pml4 virt : Nat) : Nat :=
  let pdpt := walkReadonly m pml4 (pml4Index virt)
  if pdpt = 0 then 0
  else
    let pd := walkReadonly m pdpt (pdptIndex virt)
    if pd = 0 then 0 else walkReadonly m pd (pdIndex virt)

theorem unmapPage_eq (pml4 virt : Nat) (m : Mem) :
    unmapPage pml4 virt m =
      if ptOf m pml4 virt = 0 then m else setEntry m (ptOf m pml4 virt) (ptIndex virt) 0 := by
  unfold unmapPage ptOf
  by_cases h1 : walkReadonly m pml4 (pml4Index virt) = 0
  · simp only [h1, if_true]
  · by_cases h2 : walkReadonly m (walkReadonly m pml4 (pml4Index virt)) (pdptIndex virt) = 0
    · simp only [if_neg h1, h2, if_true]
    · simp only [if_neg h1, if_neg h2]

theorem getPhysical_eq_ptOf (pml4 virt : Nat) (m : Mem) :
    getPhysical pml4 virt m =
      if ptOf m pml4 virt = 0 then 0
      else
        let pte := entryAt m (ptOf m pml4 virt) (ptIndex virt)
        if pte &&& PAGE_PRESENT = 0 then 0 else (pte &&& ADDR_MASK) + (virt &&& 0xFFF) := by
  unfold getPhysical ptOf
  by_cases h1 : walkReadonly m pml4 (pml4Index virt) = 0
  · simp only [h1, if_true]
  · by_cases h2 : walkReadonly m (walkReadonly m pml4 (pml4Index virt)) (pdptIndex virt) = 0
    · simp only [if_neg h1, h2, if_true]
    · simp only [if_neg h1, if_neg h2]

/-- Above the first 4 GB a reading walk finds the last-level table of its
    address exactly if there is one. -/
theorem ptOf_high (h : Tables base m T) (hv : High virt) :
    ptOf m base virt = (T (ptPath virt)).getD 0 := by
  have hlt1 : 1 < 3 := by decide
  have hpos : ∀ p t, T p = some t → t ≠ 0 := fun p t ht => (h.frame p t ht).2.1.ne'
  unfold ptOf ptPath
  cases h1 : T [pml4Index virt] with
  | none =>
    have hw := walkReadonly_none h h.root (Nat.zero_lt_succ 2) (index_lt virt 39) h1 rfl
    rw [below_none h (below_none h h1 _) _]
    exact if_pos hw
  | some pdpt =>
    have hw1 : walkReadonly m base (pml4Index virt) = pdpt := walkReadonly_some h h.root h1
    simp only [hw1, if_neg (hpos _ _ h1)]
    cases h2 : T [pdptIndex virt, pml4Index virt] with
    | none =>
      have hw := walkReadonly_none h h1 hlt1 (index_lt virt 30) h2 (bootLeaf_one _ _)
      rw [below_none h h2 _]
      exact if_pos hw
    | some pd =>
      have hw2 : walkReadonly m pdpt (pdptIndex virt) = pd := walkReadonly_some h h1 h2
      simp only [hw2, if_neg (hpos _ _ h2)]
      cases h3 : T [pdIndex virt, pdptIndex virt, pml4Index virt] with
      | none =>
        exact walkReadonly_none h h2 (Nat.lt_succ_self 2) (index_lt virt 21) h3
          (bootLeaf_high hv _)
      | some pt => exact walkReadonly_some h h2 h3

/-- Unmapping clears the entry of its address if there is one. -/
theorem unmapPage_spec (h : Tables base m T) (hv : High virt) :
    (T (ptPath virt) = none ∧ unmapPage base virt m = m) ∨
      ∃ t, T (ptPath virt) = some t ∧ unmapPage base virt m = setEntry m t (ptIndex virt) 0 := by
  rw [unmapPage_eq, ptOf_high h hv]
  cases ht : T (ptPath virt) with
  | none => exact Or.inl ⟨rfl, if_pos rfl⟩
  | some t => exact Or.inr ⟨t, rfl, if_neg (h.frame _ t ht).2.1.ne'⟩

/-- `getPhysical` reads the entry of the last level. -/
theorem getPhysical_eq (h : Tables base m T) (hv : High virt) :
    getPhysical base virt m =
      if leafOf m T virt &&& PAGE_PRESENT = 0 then 0
      else (leafOf m T virt &&& ADDR_MASK) + (virt &&& 0xFFF) := by
  rw [getPhysical_eq_ptOf, ptOf_high h hv]
  cases ht : T (ptPath virt) with
  | none =>
    rw [leafOf_none ht, Nat.zero_and, if_pos rfl]
    exact if_pos rfl
  | some t =>
    rw [leafOf, leafEntry_some ht]
    exact if_neg (h.frame _ t ht).2.1.ne'

/-! ### The hardware's walk -/

theorem vacant_absent (h : Tables base m T) {s : Nat} (hs : T p = some s) (hp : p.length < 3)
    (hi : i < 512) (ht : T (i :: p) = none) (hleaf : bootLeaf p i = 0) :
    entryAt m s i &&& PAGE_PRESENT = 0 := by
  rw [h.vacant i p s hs hp hi ht, hleaf, Nat.zero_and]

/-- Above the first 4 GB the hardware translates by the entry of the last
    level. -/
theorem hwTranslate_high (h : Tables base m T) (hv : High virt) :
    hwTranslate m base virt =
      if leafOf m T virt &&& PAGE_PRESENT = 0 then none
      else some ((leafOf m T virt &&& ADDR_MASK) + virt % 2 ^ 12) := by
  have hlt1 : 1 < 3 := by decide
  have habsent : T (ptPath virt) = none → leafOf m T virt &&& PAGE_PRESENT = 0 := by
    intro hnone
    rw [leafOf_none hnone, Nat.zero_and]
  unfold hwTranslate
  cases h1 : T [pml4Index virt] with
  | none =>
    rw [if_pos (habsent (below_none h (below_none h h1 _) _))]
    exact if_pos (vacant_absent h h.root (Nat.zero_lt_succ 2) (index_lt virt 39) h1 rfl)
  | some pdpt =>
    rcases link_present h h.root h1 with ⟨hp1, ha1, _⟩
    simp only [if_neg hp1, ha1]
    cases h2 : T [pdptIndex virt, pml4Index virt] with
    | none =>
      rw [if_pos (habsent (below_none h h2 _))]
      exact if_pos (vacant_absent h h1 hlt1 (index_lt virt 30) h2 (bootLeaf_one _ _))
    | some pd =>
      rcases link_present h h1 h2 with ⟨hp2, ha2, hs2⟩
      simp only [if_neg hp2, ha2, hs2, ne_eq, not_true_eq_false, if_false]
      cases h3 : T [pdIndex virt, pdptIndex virt, pml4Index virt] with
      | none =>
        rw [if_pos (habsent h3)]
        exact if_pos (vacant_absent h h2 (Nat.lt_succ_self 2) (index_lt virt 21) h3
          (bootLeaf_high hv _))
      | some pt =>
        rcases link_present h h2 h3 with ⟨hp3, ha3, hs3⟩
        simp only [if_neg hp3, ha3, hs3, not_true_eq_false, if_false]
        rw [leafOf, ptPath, leafEntry_some h3]

/-- A 2 MB entry of the boot tables is present, has the page-size bit, and
    leads to the address it stands for. -/
theorem boot_entry {n : Nat} (hn : n < 2048) :
    (n * 2 ^ 21 + 0x83) &&& PAGE_PRESENT ≠ 0 ∧ (n * 2 ^ 21 + 0x83) &&& PAGE_SIZE_BIT ≠ 0 ∧
      (n * 2 ^ 21 + 0x83) &&& 0x000FFFFFFFE00000 = n * 2 ^ 21 := by
  have hmask : (n * 2 ^ 21 + 0x83) &&& 0x000FFFFFFFE00000 =
      (n * 2 ^ 21 + 0x83) / 2 ^ 21 % 2 ^ 31 * 2 ^ 21 := and_field _ 21 31
  rw [hmask, and_present, and_sizeBit]
  omega

/-- In the first 4 GB the hardware stops at a 2 MB page of the boot tables,
    whatever has been mapped. -/
theorem hwTranslate_low (h : Tables base m T) (h4 : pml4Index virt = 0) (hg : pdptIndex virt < 4) :
    hwTranslate m base virt =
      some ((pdptIndex virt * 512 + pdIndex virt) * 2 ^ 21 + virt % 2 ^ 21) := by
  have hlt : pdIndex virt < 512 := index_lt virt 21
  have h2 := h.boot.2 _ hg
  rcases link_present h h.root h.boot.1 with ⟨hp1, ha1, _⟩
  rcases link_present h h.boot.1 h2 with ⟨hp2, ha2, hs2⟩
  have he := h.vacant (pdIndex virt) _ _ h2 (Nat.lt_succ_self 2) hlt (h.low _ _ hg)
  rw [bootLeaf, if_pos hg] at he
  rcases boot_entry (n := pdptIndex virt * 512 + pdIndex virt) (by omega) with ⟨hp3, hs3, ha3⟩
  unfold hwTranslate
  simp only [h4, if_neg hp1, ha1, if_neg hp2, ha2, hs2, ne_eq, not_true_eq_false, if_false, he,
    if_neg hp3, hs3, not_false_eq_true, if_true, ha3]

theorem walkOrAlloc_present {m : Mem} {t : Nat} (h : entryAt m t i &&& PAGE_PRESENT ≠ 0) :
    walkOrAlloc m t i supply =
      { mem := m, next := entryAt m t i &&& ADDR_MASK, supply := supply } :=
  if_pos h

/-- In the first 4 GB `mapPage` takes the 2 MB page of its address for a
    table and writes its entry there. -/
theorem mapPage_low (h : Tables base m T) (hv : 2 ^ 21 ≤ virt) (hlt : virt < 2 ^ 32)
    (phys flags : Nat) (supply : List Nat) :
    mapPage base virt phys flags supply m =
      (setEntry m (virt / 2 ^ 21 * 2 ^ 21) (ptIndex virt) (mapped phys flags), supply) := by
  have h4 : pml4Index virt = 0 := by
    rw [pml4Index, index_eq]
    omega
  have h3 : pdptIndex virt = virt / 2 ^ 30 := by
    rw [pdptIndex, index_eq]
    omega
  have hi : pdIndex virt = virt / 2 ^ 21 % 512 := index_eq virt 21
  have hg : virt / 2 ^ 30 < 4 := by omega
  have h2 := h.boot.2 _ hg
  rcases link_present h h.root h.boot.1 with ⟨hp1, ha1, _⟩
  rcases link_present h h.boot.1 h2 with ⟨hp2, ha2, _⟩
  have he := h.vacant (virt / 2 ^ 21 % 512) _ _ h2 (Nat.lt_succ_self 2) (by omega) (h.low _ _ hg)
  have hn : virt / 2 ^ 30 * 512 + virt / 2 ^ 21 % 512 = virt / 2 ^ 21 := by omega
  rw [bootLeaf, if_pos hg, hn] at he
  have hp3 := (boot_entry (n := virt / 2 ^ 21) (by omega)).1
  have ha3 : (virt / 2 ^ 21 * 2 ^ 21 + 0x83) &&& ADDR_MASK = virt / 2 ^ 21 * 2 ^ 21 :=
    addr_link (by omega) (by omega) (by decide)
  have hne1 : bootPdpt base ≠ 0 := (h.frame _ _ h.boot.1).2.1.ne'
  have hne2 : bootPd base (virt / 2 ^ 30) ≠ 0 := (h.frame _ _ h2).2.1.ne'
  have hne3 : virt / 2 ^ 21 * 2 ^ 21 ≠ 0 := by omega
  unfold mapPage
  rw [h4, h3, hi, walkOrAlloc_present hp1, ha1]
  rw [if_neg hne1, walkOrAlloc_present hp2, ha2]
  rw [if_neg hne2, walkOrAlloc_present (by rw [he]; exact hp3), he, ha3]
  exact if_neg hne3

end

end SysRust.Vmm
