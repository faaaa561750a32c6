import SysRust.Lib.Machine
import SysRust.Theory.Vmm.Boot
import SysRust.Theory.Vmm.Translate

/-!
# Runs of the Virtual Memory Manager

Mapping and unmapping from the boot tables on, in any order. A session keeps,
next to the memory, the frames handed out for tables and the finite map that
the calls so far describe.

The kernel's walks do not look at the page-size bit, so a call for an address
of the first 4 GB takes a 2 MB page for a table and writes into it. Above the
first 4 GB the manager does what it is for: the tables stay a tree, a mapping
takes effect and changes no other translation, and `getPhysical` reads back
the finite map.

## Main definitions

* `Session`, `sessions`: The manager, its clients and all their runs.
* `AboveBoot`: A call for an address that is not in the first 4 GB.
* `IsTable`: A frame that the hardware's walk uses as a table.
* `LowerCall`, `finiteMap`: Runs of successful calls in the lower half.

## Theorems

* `tables_reachable`: Above the first 4 GB the tables stay a tree.
* `mapPage_translates`: A mapping above 4 GB takes effect and does nothing else.
* `mapPage_low_lost`: A mapping in the first 4 GB has no effect and overwrites
  memory.
* `getPhysical_eq_maps`: The manager is a finite map.
-/

namespace SysRust.Vmm

open Function

/-! ### Pages and paths -/

/-- Bits 47 to 63 of the address are the same. -/
def Canonical (virt : Nat) : Prop := virt < 2 ^ 47 ∨ (2 ^ 64 - 2 ^ 47 ≤ virt ∧ virt < 2 ^ 64)

instance (virt : Nat) : Decidable (Canonical virt) := inferInstanceAs (Decidable (_ ∨ _))

variable {v w flags phys : Nat} {supply : List Nat}

/-- Canonical addresses that lead to the same entry are in the same page. -/
theorem page_of_path (hv : Canonical v) (hw : Canonical w) (hpath : ptPath v = ptPath w)
    (hidx : ptIndex v = ptIndex w) : v / 4096 = w / 4096 := by
  simp only [ptPath, List.cons.injEq, and_true, pdIndex, pdptIndex, pml4Index, index_eq] at hpath
  simp only [ptIndex, index_eq] at hidx
  unfold Canonical at hv hw
  omega

/-- An address determines its entry by its page. -/
theorem path_of_page (h : v / 4096 = w / 4096) : ptPath v = ptPath w ∧ ptIndex v = ptIndex w := by
  simp only [ptPath, List.cons.injEq, and_true, pdIndex, pdptIndex, pml4Index, ptIndex, index_eq]
  omega

theorem high_of_above (hv : Canonical v) (habove : 2 ^ 32 ≤ v) : High v := by
  unfold High pml4Index pdptIndex
  rw [index_eq, index_eq]
  unfold Canonical at hv
  omega

/-! ### One call -/

section Calls

variable {base : Nat} {m : Mem} {T : Path → Option Nat} {virt : Nat}

/-- What one call does to the tree: the tables stay a tree, other pages keep
    their entries, and memory changes in tables only. -/
structure Effect (base : Nat) (m : Mem) (T : Path → Option Nat) (virt : Nat) (m' : Mem)
    (T' : Path → Option Nat) : Prop where
  tables : Tables base m' T'
  others : ∀ w, ¬ (ptPath virt = ptPath w ∧ ptIndex virt = ptIndex w) →
    leafOf m' T' w = leafOf m T w
  only : ∀ a, m' a ≠ m a → ∃ p t, T' p = some t ∧ t ≤ a ∧ a < t + 4096

theorem mapped_lt (phys flags : Nat) : mapped phys flags < 2 ^ 64 := by
  refine lt_of_lt_of_le (Nat.or_lt_two_pow (n := 52) ?_ ?_) (Nat.pow_le_pow_right (by decide)
    (by decide))
  · exact Nat.and_lt_two_pow _ (by decide)
  · exact Nat.and_lt_two_pow _ (by decide)

/-- Setting an entry of the last level. -/
theorem effect_setLeaf (h : Tables base m T) {t : Nat} (ht : T (ptPath virt) = some t) (e : Nat) :
    Effect base m T virt (setEntry m t (ptIndex virt) e) T ∧
      leafOf (setEntry m t (ptIndex virt) e) T virt = e % 2 ^ 64 := by
  have hj : ptIndex virt < 512 := index_lt virt 12
  refine ⟨⟨tables_setLeaf h ht rfl hj e, fun w hne => ?_, fun a hne => ?_⟩, ?_⟩
  · unfold leafOf leafEntry
    cases hr : T (ptPath w) with
    | none => rfl
    | some u => exact entryAt_setEntry_of_ne h e ht hr hj (index_lt w 12) hne
  · refine ⟨_, t, ht, ?_⟩
    by_contra hout
    exact hne (store_outside (by omega))
  · rw [leafOf, leafEntry_some ht, entryAt_setEntry_self]

/-- `mapPage` above the first 4 GB. -/
theorem mapPage_effect (h : Tables base m T) (hv : High virt) (phys flags : Nat)
    (hfresh : Fresh T supply) :
    ∃ T' used, Effect base m T virt (mapPage base virt phys flags supply m).1 T' ∧
      supply = used ++ (mapPage base virt phys flags supply m).2 ∧
      (∀ p t, T' p = some t → T p = some t ∨ t ∈ used) ∧
      (¬ AllocFailed supply (mapPage base virt phys flags supply m).2 →
        leafOf (mapPage base virt phys flags supply m).1 T' virt = mapped phys flags) := by
  rcases mapPage_spec h hv phys flags hfresh with ⟨m', T', hg, hout⟩
  rcases hg.used with ⟨used, hused, hown⟩
  have hleaf : ∀ w, leafOf m' T' w = leafOf m T w := fun w => hg.leaf _ _ rfl (index_lt w 12)
  rcases hout with ⟨hm, hfail⟩ | ⟨t, ht, hm⟩
  · -- Out of pages: at most some empty tables have been added.
    rw [hm]
    exact ⟨T', used, ⟨hg.tables, fun w _ => hleaf w, hg.only⟩, hused, hown,
      fun hok => absurd hfail hok⟩
  · rcases effect_setLeaf hg.tables ht (mapped phys flags) with ⟨heff, hself⟩
    rw [hm]
    refine ⟨T', used, ⟨heff.tables, fun w hne => (heff.others w hne).trans (hleaf w), ?_⟩, hused,
      hown, fun _ => hself.trans (Nat.mod_eq_of_lt (mapped_lt phys flags))⟩
    intro a hne
    by_cases ha : setEntry m' t (ptIndex virt) (mapped phys flags) a = m' a
    · exact hg.only a (ha ▸ hne)
    · exact heff.only a ha

/-- `unmapPage` above the first 4 GB. -/
theorem unmapPage_effect (h : Tables base m T) (hv : High virt) :
    Effect base m T virt (unmapPage base virt m) T ∧ leafOf (unmapPage base virt m) T virt = 0 := by
  rcases unmapPage_spec h hv with ⟨hnone, hm⟩ | ⟨t, ht, hm⟩
  · rw [hm]
    exact ⟨⟨h, fun _ _ => rfl, fun _ hne => absurd rfl hne⟩, leafOf_none hnone⟩
  · rw [hm]
    exact effect_setLeaf h ht 0

/-- A call for another page does not change what the hardware does. -/
theorem hwTranslate_effect {m' : Mem} {T' : Path → Option Nat} (h : Tables base m T)
    (heff : Effect base m T virt m' T') (hv : Canonical virt) (hw : Canonical w)
    (hne : w / 4096 ≠ virt / 4096) : hwTranslate m' base w = hwTranslate m base w := by
  by_cases hhigh : High w
  · have hleaf := heff.others w (fun e => hne (page_of_path hw hv e.1.symm e.2.symm))
    rw [hwTranslate_high heff.tables hhigh, hwTranslate_high h hhigh, hleaf]
  · have hlow := not_not.mp hhigh
    rw [hwTranslate_low heff.tables hlow.1 hlow.2, hwTranslate_low h hlow.1 hlow.2]

end Calls

/-! ### Sessions -/

/-- The memory with the tables, the frames handed out for tables, and the map
    from page numbers to frames that the calls so far describe. -/
structure Session where
  mem : Mem
  base : Nat
  frames : List Nat
  maps : Nat → Option Nat

inductive Request where
  | map (virt phys flags : Nat) (supply : List Nat)
  | unmap (virt : Nat)

/-- The address a request is for. -/
def Request.virt : Request → Nat
  | .map virt _ _ _ => virt
  | .unmap virt => virt

/-- What `pmm::alloc_page` can return next: pages below 4 GB that are neither
    boot tables nor handed out, each of them once, or `0`. -/
structure Session.Offers (s : Session) (supply : List Nat) : Prop where
  frame : ∀ f ∈ supply, f ≠ 0 → f % 4096 = 0 ∧ f + 4096 ≤ 2 ^ 32
  image : ∀ f ∈ supply, f ≠ 0 → f + 4096 ≤ s.base ∨ s.base + 0x6000 ≤ f
  unused : ∀ f ∈ supply, f ∉ s.frames
  nodup : (supply.filter (fun f => f ≠ 0)).Nodup

/-- Addresses are canonical, and the allocator offers what it may. -/
def Allowed (s : Session) : Request → Prop
  | .map virt _ _ supply => Canonical virt ∧ s.Offers supply
  | .unmap virt => Canonical virt

def serve (s : Session) : Request → Option Session
  | .map virt phys flags supply =>
    let r := mapPage s.base virt phys flags supply s.mem
    some { s with
      mem := r.1
      frames := s.frames ++ (supply.take (supply.length - r.2.length)).filter (fun f => f ≠ 0)
      maps := Function.update s.maps (virt / 4096) (some phys) }
  | .unmap virt => some { s with
      mem := unmapPage s.base virt s.mem
      maps := Function.update s.maps (virt / 4096) none }

/-- All runs of the manager from the boot tables. -/
def sessions : Machine Session Request where
  start := fun s => (∃ m, BssClear s.base m ∧ s.mem = bootTables s.base m) ∧ s.frames = [] ∧
    s.maps = fun _ => none
  allows := Allowed
  exec := serve

/-- The request is for an address outside the first 4 GB. -/
def AboveBoot (_ : Session) (o : Request) : Prop := 2 ^ 32 ≤ o.virt

/-- The tables of a session are a tree, in frames that are boot tables or
    were handed out. -/
structure Inv (s : Session) (T : Path → Option Nat) : Prop where
  tables : Tables s.base s.mem T
  owned : ∀ p t, T p = some t → (s.base ≤ t ∧ t < s.base + 0x6000) ∨ t ∈ s.frames

variable {s t : Session} {o : Request}

theorem inv_start (h : sessions.start s) : Inv s (bootTree s.base) := by
  rcases h with ⟨⟨m, hm, hmem⟩, _, _⟩
  refine ⟨hmem ▸ tables_boot hm, fun p t ht => Or.inl ?_⟩
  rcases bootTree_cases ht with ⟨_, rfl⟩ | ⟨_, rfl⟩ | ⟨g, hg, _, rfl⟩
  · omega
  · unfold bootPdpt
    omega
  · unfold bootPd
    omega

variable {T : Path → Option Nat}

theorem fresh_of_offers (h : Inv s T) (ho : s.Offers supply) : Fresh T supply := by
  refine ⟨ho.frame, fun f hf h0 p hp => ?_, ho.nodup⟩
  rcases h.owned p f hp with hin | hin
  · have := ho.image f hf h0
    omega
  · exact ho.unused f hf hin

/-- The part of the supply that a call has used. -/
theorem take_used {used rest : List Nat} (h : supply = used ++ rest) :
    supply.take (supply.length - rest.length) = used := by
  rw [h, List.length_append, Nat.add_sub_cancel, List.take_left]

/-- What a request leaves in the entry of its own page. -/
def Leaves (s : Session) (e : Nat) : Request → Prop
  | .map virt phys flags supply =>
    ¬ AllocFailed supply (mapPage s.base virt phys flags supply s.mem).2 → e = mapped phys flags
  | .unmap _ => e = 0

/-- One request above the first 4 GB. -/
theorem inv_step (h : Inv s T) (ha : Allowed s o) (habove : 2 ^ 32 ≤ o.virt)
    (he : serve s o = some t) :
    ∃ T', Inv t T' ∧ Effect s.base s.mem T o.virt t.mem T' ∧
      Leaves s (leafOf t.mem T' o.virt) o := by
  cases o with
  | map virt phys flags supply =>
    have hhigh := high_of_above ha.1 habove
    rcases mapPage_effect h.tables hhigh phys flags (fresh_of_offers h ha.2) with
      ⟨T', used, heff, hused, hown, hset⟩
    rw [serve, Option.some.injEq] at he
    rw [← he]
    refine ⟨T', ⟨heff.tables, fun p t ht => ?_⟩, heff, hset⟩
    -- The frames taken from the supply are recorded.
    have hpos := (heff.tables.frame p t ht).2.1
    rcases hown p t ht with hold | hnew
    · rcases h.owned p t hold with hin | hin
      · exact Or.inl hin
      · exact Or.inr (List.mem_append_left _ hin)
    · refine Or.inr (List.mem_append_right _ ?_)
      rw [take_used hused, List.mem_filter]
      exact ⟨hnew, decide_eq_true hpos.ne'⟩
  | unmap virt =>
    rcases unmapPage_effect h.tables (high_of_above ha habove) with ⟨heff, hclear⟩
    rw [serve, Option.some.injEq] at he
    rw [← he]
    exact ⟨T, ⟨heff.tables, h.owned⟩, heff, hclear⟩

/-- While the calls are for addresses above the first 4 GB, the tables stay a
    tree. -/
theorem tables_reachable (hs : (sessions.restrict AboveBoot).Reachable s) : ∃ T, Inv s T := by
  refine Machine.Reachable.invariant (M := sessions.restrict AboveBoot) (fun s => ∃ T, Inv s T)
    (fun s h => ⟨_, inv_start h⟩) ?_ hs
  rintro s t o ⟨T, h⟩ ⟨ha, habove⟩ he
  rcases inv_step h ha habove he with ⟨T', h', _, _⟩
  exact ⟨T', h'⟩

/-! ### Mappings take effect -/

/-- The frames that the hardware's walk uses as tables, with their level. -/
inductive IsTable (m : Mem) (pml4 : Nat) : Nat → Nat → Prop
  | root : IsTable m pml4 0 pml4
  | next (d t i : Nat) : IsTable m pml4 d t → d < 3 → i < 512 →
      entryAt m t i &&& PAGE_PRESENT ≠ 0 → entryAt m t i &&& PAGE_SIZE_BIT = 0 →
      IsTable m pml4 (d + 1) (entryAt m t i &&& ADDR_MASK)

/-- The tables of the tree are tables for the hardware. -/
theorem isTable_of_tree {base : Nat} {m : Mem} (h : Tables base m T) {p : Path} {t : Nat}
    (ht : T p = some t) : IsTable m base p.length t := by
  induction p generalizing t with
  | nil =>
    rw [h.root, Option.some.injEq] at ht
    exact ht ▸ IsTable.root
  | cons i p ih =>
    rcases h.parent i p t ht with ⟨hi, s, hs⟩
    rcases link_present h hs ht with ⟨hpres, haddr, hsize⟩
    have hlen := h.depth _ _ ht
    rw [List.length_cons] at hlen ⊢
    exact haddr ▸ IsTable.next p.length s i (ih hs) (by omega) hi hpres hsize

/-- The address and the present bit of the entry for an aligned page. -/
theorem mapped_eq (hp : phys % 4096 = 0) (hlt : phys < 2 ^ 52) :
    mapped phys flags = phys + flags % 4096 := by
  have haddr : phys &&& ADDR_MASK = phys := by
    rw [and_addrMask]
    omega
  rw [mapped, haddr, and_offset]
  exact or_low 12 hp (Nat.mod_lt _ (by decide))

/-- In every state that calls above the first 4 GB lead to, mapping a page
    above the first 4 GB makes the hardware translate its address to the given
    frame, changes the translation of no other page, and writes to page tables
    only. -/
theorem mapPage_translates {s : Session} (hs : (sessions.restrict AboveBoot).Reachable s)
    {v p : Nat} {supply : List Nat} (hcan : Canonical v) (hv : v % 4096 = 0) (habove : 2 ^ 32 ≤ v)
    (hp : p % 4096 = 0) (hlt : p < 2 ^ 52) (hoff : s.Offers supply)
    (hok : ¬ AllocFailed supply
      (mapPage s.base v p (PAGE_PRESENT ||| PAGE_WRITE) supply s.mem).2) :
    let m' := (mapPage s.base v p (PAGE_PRESENT ||| PAGE_WRITE) supply s.mem).1
    hwTranslate m' s.base v = some p ∧
    (∀ w, Canonical w → w / 4096 ≠ v / 4096 →
      hwTranslate m' s.base w = hwTranslate s.mem s.base w) ∧
    ∀ a, m' a ≠ s.mem a → ∃ d t, IsTable m' s.base d t ∧ t ≤ a ∧ a < t + 4096 := by
  rcases tables_reachable hs with ⟨T, h⟩
  have hhigh := high_of_above hcan habove
  rcases mapPage_effect h.tables hhigh p (PAGE_PRESENT ||| PAGE_WRITE) (fresh_of_offers h hoff)
    with ⟨T', used, heff, _, _, hset⟩
  refine ⟨?_, fun w hw hne => hwTranslate_effect h.tables heff hcan hw hne, fun a hne => ?_⟩
  · have hpres : (p + (PAGE_PRESENT ||| PAGE_WRITE) % 4096) &&& PAGE_PRESENT ≠ 0 := by
      rw [and_present, show (PAGE_PRESENT ||| PAGE_WRITE) % 4096 = 3 from rfl]
      omega
    rw [hwTranslate_high heff.tables hhigh, hset hok, mapped_eq hp hlt, if_neg hpres,
      addr_link hp hlt (Nat.mod_lt _ (by decide)), show v % 2 ^ 12 = 0 from hv, Nat.add_zero]
  · rcases heff.only a hne with ⟨q, t, ht, hlo, hhi⟩
    exact ⟨_, t, isTable_of_tree heff.tables ht, hlo, hhi⟩

/-- The session right after boot. -/
def atBoot (base : Nat) (m : Mem) : Session where
  mem := bootTables base m
  base := base
  frames := []
  maps := fun _ => none

theorem reachable_atBoot {base : Nat} {m : Mem} (h : BssClear base m) :
    sessions.start (atBoot base m) := by
  unfold atBoot
  exact ⟨⟨m, h, by simp only⟩, rfl, rfl⟩

/-- Boot with the tables at 2 MB in zeroed memory. -/
def booted : Session := atBoot 0x200000 (fun _ => 0)

theorem booted_start : sessions.start booted :=
  reachable_atBoot ⟨by decide, by decide, by decide, fun _ _ _ => rfl⟩

def fourPages : List Nat := [0x300000, 0x301000, 0x302000, 0x303000]

/-- The four pages are ones that the allocator may hand out after boot. -/
theorem booted_offers : booted.Offers fourPages :=
  ⟨by decide, by decide, by decide, by decide⟩

/-- The first page above 4 GB can be mapped right after boot. -/
theorem mapPage_translates_booted :
    hwTranslate (mapPage booted.base 0x100000000 0x800000 (PAGE_PRESENT ||| PAGE_WRITE) fourPages
      booted.mem).1 booted.base 0x100000000 = some 0x800000 :=
  (mapPage_translates (Machine.Reachable.start _ booted_start) (by decide) (by decide) (by decide)
    (by decide) (by decide) booted_offers (not_allocFailed _ _ _ _ _ (by decide) (by decide))).1

/-- The call that maps 0x400000 to 0x800000 right after boot. -/
def lowMapping : Mem × List Nat :=
  mapPage booted.base 0x400000 0x800000 (PAGE_PRESENT ||| PAGE_WRITE) fourPages booted.mem

theorem lowMapping_eq : lowMapping = (setEntry booted.mem 0x400000 0 0x800003, fourPages) :=
  mapPage_low (inv_start booted_start).tables (by decide) (by decide) _ _ _

/-- Right after boot, mapping 0x400000 to 0x800000 meets no failing
    allocation, leaves the translation of 0x400000 as it was, and overwrites
    the memory at 0x400000. -/
theorem mapPage_low_lost :
    sessions.Reachable booted ∧ Canonical 0x400000 ∧ booted.Offers fourPages ∧
      ¬ AllocFailed fourPages lowMapping.2 ∧
      hwTranslate lowMapping.1 booted.base 0x400000 = some 0x400000 ∧
      lowMapping.1 0x400000 ≠ booted.mem 0x400000 := by
  have h := inv_start booted_start
  refine ⟨Machine.Reachable.start _ booted_start, by decide, booted_offers,
    not_allocFailed _ _ _ _ _ (by decide) (by decide), ?_, ?_⟩
  · -- The write misses the tables, and the hardware still finds the 2 MB page.
    have h' : Tables booted.base lowMapping.1 (bootTree booted.base) := by
      refine tables_agree h.tables (fun p t ht b hlo hhi => ?_)
      rw [lowMapping_eq]
      refine store_outside (Or.inl ?_)
      have ht' : t < 0x206000 := (h.owned p t ht).elim And.right (fun hin => nomatch hin)
      omega
    exact hwTranslate_low h' rfl (by decide)
  · have hold : booted.mem 0x400000 = 0 := by
      unfold booted atBoot
      simp only [bootTables_outside 0x200000 _ (show 0x400000 < 0x200000 ∨
        0x200000 + 0x6000 ≤ 0x400000 by decide)]
    rw [lowMapping_eq, hold]
    decide

/-! ### The finite map -/

/-- A call in the lower half above the first 4 GB, for an aligned frame and
    with a present page, in which no allocation fails. -/
def LowerCall (s : Session) : Request → Prop
  | .map virt phys flags supply => (2 ^ 32 ≤ virt ∧ virt < 2 ^ 47) ∧
      (phys % 4096 = 0 ∧ phys < 2 ^ 52) ∧ flags &&& PAGE_PRESENT ≠ 0 ∧
      ¬ AllocFailed supply (mapPage s.base virt phys flags supply s.mem).2
  | .unmap virt => 2 ^ 32 ≤ virt ∧ virt < 2 ^ 47

theorem lowerCall_above (h : LowerCall s o) : 2 ^ 32 ≤ o.virt ∧ o.virt < 2 ^ 47 := by
  cases o with
  | map virt phys flags supply => exact h.1
  | unmap virt => exact h

/-- The runs of such calls. -/
def finiteMap : Machine Session Request := sessions.restrict LowerCall

/-- An entry of the last level says what the finite map says. -/
def Shows (e : Nat) : Option Nat → Prop
  | some phys => e &&& PAGE_PRESENT ≠ 0 ∧ e &&& ADDR_MASK = phys
  | none => e &&& PAGE_PRESENT = 0

/-- The tables show the finite map on the lower half above 4 GB. -/
def Agrees (s : Session) (T : Path → Option Nat) : Prop :=
  ∀ w, 2 ^ 32 ≤ w → w < 2 ^ 47 → Shows (leafOf s.mem T w) (s.maps (w / 4096))

theorem shows_mapped (hp : phys % 4096 = 0) (hlt : phys < 2 ^ 52)
    (hfl : flags &&& PAGE_PRESENT ≠ 0) : Shows (mapped phys flags) (some phys) := by
  rw [and_present] at hfl
  rw [mapped_eq hp hlt]
  refine ⟨?_, addr_link hp hlt (Nat.mod_lt _ (by decide))⟩
  rw [and_present]
  omega

/-- The entry of its page shows what such a call asked for. -/
theorem shows_own {e : Nat} (hp : LowerCall s o) (hl : Leaves s e o) (he : serve s o = some t) :
    Shows e (t.maps (o.virt / 4096)) := by
  cases o with
  | map virt phys flags supply =>
    rw [serve, Option.some.injEq] at he
    rw [← he, hl hp.2.2.2]
    simp only [Request.virt, update_self]
    exact shows_mapped hp.2.1.1 hp.2.1.2 hp.2.2.1
  | unmap virt =>
    rw [serve, Option.some.injEq] at he
    rw [← he, show e = 0 from hl]
    simp only [Request.virt, update_self]
    exact Nat.zero_and _

/-- The finite map changes at the page of the call only. -/
theorem maps_other (he : serve s o = some t) {j : Nat} (hj : j ≠ o.virt / 4096) :
    t.maps j = s.maps j := by
  cases o with
  | map | unmap =>
    rw [serve, Option.some.injEq] at he
    rw [← he]
    exact update_of_ne hj _ _

/-- One such call keeps the tables in step with the finite map. -/
theorem agrees_step (h : Inv s T) (hag : Agrees s T) (ha : Allowed s o) (hp : LowerCall s o)
    (he : serve s o = some t) : ∃ T', Inv t T' ∧ Agrees t T' := by
  rcases lowerCall_above hp with ⟨hlo, hhi⟩
  rcases inv_step h ha hlo he with ⟨T', h', heff, hl⟩
  refine ⟨T', h', fun w hwlo hwhi => ?_⟩
  by_cases hpage : w / 4096 = o.virt / 4096
  · rcases path_of_page hpage with ⟨hpath, hidx⟩
    have hsame : leafOf t.mem T' w = leafOf t.mem T' o.virt := by
      rw [leafOf, leafOf, hpath, hidx]
    rw [hpage, hsame]
    exact shows_own hp hl he
  · have hother := heff.others w (fun e => hpage
      (page_of_path (Or.inl hwhi) (Or.inl hhi) e.1.symm e.2.symm))
    rw [hother, maps_other he hpage]
    exact hag w hwlo hwhi

/-- The boot tables have no table of the last level. -/
theorem bootTree_ptPath (base w : Nat) : bootTree base (ptPath w) = none := by
  by_contra hne
  rcases Option.ne_none_iff_exists'.mp hne with ⟨t, ht⟩
  rcases bootTree_cases ht with ⟨e, _⟩ | ⟨e, _⟩ | ⟨g, _, e, _⟩ <;>
    simp only [ptPath, List.cons.injEq, reduceCtorEq, and_false] at e

theorem agrees_start (h : sessions.start s) : Agrees s (bootTree s.base) := by
  intro w hlo hhi
  rw [leafOf_none (bootTree_ptPath s.base w), h.2.2]
  exact Nat.zero_and _

theorem agrees_reachable (hs : finiteMap.Reachable s) : ∃ T, Inv s T ∧ Agrees s T := by
  refine Machine.Reachable.invariant (M := finiteMap) (fun s => ∃ T, Inv s T ∧ Agrees s T)
    (fun s h => ⟨_, inv_start h, agrees_start h⟩) ?_ hs
  rintro s t o ⟨T, h, hag⟩ ⟨ha, hp⟩ he
  exact agrees_step h hag ha hp he

/-- What the finite map has for an address. -/
def Session.lookup (s : Session) (w : Nat) : Nat :=
  match s.maps (w / 4096) with
  | some phys => phys + w % 4096
  | none => 0

theorem getPhysical_lookup (h : Inv s T) (hag : Agrees s T) (hlo : 2 ^ 32 ≤ w) (hhi : w < 2 ^ 47) :
    getPhysical s.base w s.mem = s.lookup w := by
  have hshow := hag w hlo hhi
  rw [getPhysical_eq h.tables (high_of_above (Or.inl hhi) hlo), and_offset, Session.lookup]
  cases hm : s.maps (w / 4096) with
  | none =>
    rw [hm] at hshow
    exact if_pos hshow
  | some phys =>
    rw [hm] at hshow
    rw [if_neg hshow.1, hshow.2]

/-- In every run of such calls the manager is a finite map: `getPhysical`
    returns the frame of the most recent mapping of the page, if it has not
    been unmapped, and no call changes what it returns for another page. -/
theorem getPhysical_eq_maps {s : Session} (hs : finiteMap.Reachable s) {w : Nat}
    (hlo : 2 ^ 32 ≤ w) (hhi : w < 2 ^ 47) :
    getPhysical s.base w s.mem = s.lookup w ∧
      ∀ o t, finiteMap.allows s o → finiteMap.exec s o = some t → w / 4096 ≠ o.virt / 4096 →
        getPhysical t.base w t.mem = getPhysical s.base w s.mem := by
  rcases agrees_reachable hs with ⟨T, h, hag⟩
  have hnow := getPhysical_lookup h hag hlo hhi
  refine ⟨hnow, fun o t ho he hpage => ?_⟩
  rcases agrees_step h hag ho.1 ho.2 he with ⟨T', h', hag'⟩
  rw [hnow, getPhysical_lookup h' hag' hlo hhi, Session.lookup, Session.lookup,
    maps_other he hpage]

/-- A byte of the first page above 4 GB after its mapping. -/
theorem getPhysical_eq_maps_first :
    ∃ s, serve booted (.map 0x100000000 0x800000 (PAGE_PRESENT ||| PAGE_USER) fourPages) = some s ∧
      getPhysical s.base 0x100000005 s.mem = 0x800005 := by
  refine ⟨_, rfl, (getPhysical_eq_maps ?_ (by decide) (by decide)).1.trans ?_⟩
  · refine Machine.Reachable.step booted _ (.map 0x100000000 0x800000 (PAGE_PRESENT ||| PAGE_USER)
      fourPages) (Machine.Reachable.start _ booted_start) ?_ rfl
    exact ⟨⟨by decide, booted_offers⟩, by decide, by decide, by decide,
      not_allocFailed _ _ _ _ _ (by decide) (by decide)⟩
  · rfl

end SysRust.Vmm
