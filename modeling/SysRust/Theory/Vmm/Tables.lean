import SysRust.Core.Vmm
import Mathlib.Logic.Function.Basic

/-!
# The Tree of Page Tables

The page tables as a tree. A table is named by the indices that lead to it
from the PML4, the deepest first, and `Tables` says that a map from such
paths to frames describes the tables in memory: every frame belongs to one
path only, an entry either links to the table of the longer path or is what
the boot code or a zeroed page left there, and the 2 MB entries of the boot
tables are the only ones that are neither links nor empty.

No sharing is what makes everything else local. Two slots of the tree are
different words of memory, so a write to one of them is a change of one
entry, and `leafEntry` of all other places stays as it was.

## Main definitions

* `bootLeaf`: What an entry without a table below it holds.
* `Tables`: The tree in memory.
* `leafEntry`: The entry of the last level at a path and an index.
* `Fresh`: A supply of frames that are in no use as tables.
* `Grows`: The tree has grown, and nothing is mapped differently.

## Theorems

* `slots_disjoint`: Different slots are different words.
* `tables_alloc`: Installing a fresh table.
* `walkOrAlloc_grows`: One level of an allocating walk.
* `walkReadonly_some`, `walkReadonly_none`: One level of a reading walk.
* `tables_setLeaf`: Writing an entry of the last level.
-/

namespace SysRust.Vmm

open List

/-! ### Bits of an entry -/

theorem and_present (e : Nat) : e &&& PAGE_PRESENT = e % 2 := by
  have h := and_field e 0 1
  simp only [pow_zero, Nat.mul_one, Nat.div_one, pow_one, Nat.add_one_sub_one] at h
  exact h

theorem and_addrMask (e : Nat) : e &&& ADDR_MASK = e / 2 ^ 12 % 2 ^ 40 * 2 ^ 12 :=
  and_field e 12 40

theorem and_sizeBit (e : Nat) : e &&& PAGE_SIZE_BIT = e / 2 ^ 7 % 2 * 2 ^ 7 :=
  and_field e 7 1

theorem and_offset (e : Nat) : e &&& 0xFFF = e % 4096 := by
  have h := and_field e 0 12
  simp only [pow_zero, Nat.mul_one, Nat.div_one] at h
  exact h

theorem index_eq (virt k : Nat) : (virt >>> k) &&& 0x1FF = virt / 2 ^ k % 512 := by
  have h := and_field (virt >>> k) 0 9
  simp only [pow_zero, Nat.mul_one, Nat.div_one] at h
  rw [Nat.shiftRight_eq_div_pow] at h ⊢
  exact h

theorem index_lt (virt k : Nat) : (virt >>> k) &&& 0x1FF < 512 := by
  rw [index_eq]
  exact Nat.mod_lt _ (by omega)

variable {t i j s f base : Nat} {m m' : Mem} {supply rest : List Nat}

/-- The address in a link. -/
theorem addr_link {fl : Nat} (ht : t % 4096 = 0) (hlt : t < 2 ^ 52) (hfl : fl < 4096) :
    (t + fl) &&& ADDR_MASK = t := by
  rw [and_addrMask]
  omega

/-! ### The tree -/

/-- The indices that lead to a table, the deepest first. -/
abbrev Path := List Nat

/-- An entry with no table below it: a 2 MB page in the directories of the
    first 4 GB, and empty everywhere else. -/
def bootLeaf : Path → Nat → Nat
  | [g, 0], i => if g < 4 then (g * 512 + i) * 2 ^ 21 + 0x83 else 0
  | _, _ => 0

variable {p q : Path} {T : Path → Option Nat}

theorem bootLeaf_eq_zero (h : ∀ g, g < 4 → p ≠ [g, 0]) (i : Nat) : bootLeaf p i = 0 := by
  unfold bootLeaf
  split
  · rename_i g
    rw [if_neg (fun hg => h g hg rfl)]
  · rfl

/-- The tree of tables in memory, as a map from paths to frames. -/
structure Tables (base : Nat) (m : Mem) (T : Path → Option Nat) : Prop where
  root : T [] = some base
  boot : T [0] = some (bootPdpt base) ∧ ∀ g, g < 4 → T [g, 0] = some (bootPd base g)
  depth : ∀ p t, T p = some t → p.length ≤ 3
  frame : ∀ p t, T p = some t → t % 4096 = 0 ∧ 0 < t ∧ t + 4096 ≤ 2 ^ 32
  inj : ∀ p q t, T p = some t → T q = some t → p = q
  parent : ∀ i p t, T (i :: p) = some t → i < 512 ∧ ∃ s, T p = some s
  link : ∀ i p s t, T p = some s → T (i :: p) = some t →
    ∃ fl, (fl = 3 ∨ fl = 7) ∧ entryAt m s i = t + fl
  vacant : ∀ i p s, T p = some s → p.length < 3 → i < 512 → T (i :: p) = none →
    entryAt m s i = bootLeaf p i
  low : ∀ g k, g < 4 → T [k, g, 0] = none

/-- The entry of the last level at a path of length 3, zero where there is
    no table. -/
def leafEntry (m : Mem) (T : Path → Option Nat) (p : Path) (j : Nat) : Nat :=
  match T p with
  | some t => entryAt m t j
  | none => 0

theorem leafEntry_some (h : T p = some t) (j : Nat) : leafEntry m T p j = entryAt m t j := by
  rw [leafEntry, h]

theorem leafEntry_none (h : T p = none) (j : Nat) : leafEntry m T p j = 0 := by
  rw [leafEntry, h]

section Slots

/-- Different slots of the tree are different words of memory. -/
theorem slots_disjoint (h : Tables base m T) (hs : T p = some s) (ht : T q = some t) (hi : i < 512)
    (hj : j < 512) (hne : ¬ (p = q ∧ i = j)) :
    s + 8 * i + 8 ≤ t + 8 * j ∨ t + 8 * j + 8 ≤ s + 8 * i := by
  have hsa := (h.frame p s hs).1
  have hta := (h.frame q t ht).1
  by_cases hpq : p = q
  · rw [hpq, ht, Option.some.injEq] at hs
    have hij : i ≠ j := fun hij => hne ⟨hpq, hij⟩
    omega
  · have hst : s ≠ t := fun hst => hpq (h.inj p q t (hst ▸ hs) ht)
    omega

/-- A write to one slot is invisible in the others. -/
theorem entryAt_setEntry_of_ne (h : Tables base m T) (v : Nat) (hs : T p = some s)
    (ht : T q = some t) (hi : i < 512) (hj : j < 512) (hne : ¬ (p = q ∧ i = j)) :
    entryAt (setEntry m s i v) t j = entryAt m t j :=
  load_store_disjoint (slots_disjoint h ht hs hj hi (fun e => hne ⟨e.1.symm, e.2.symm⟩))

theorem entryAt_setEntry_self (m : Mem) (t j v : Nat) :
    entryAt (setEntry m t j v) t j = v % 2 ^ 64 :=
  load_store_self m _ 8 v

/-- Zeroing a frame that is no table leaves the tables alone. -/
theorem entryAt_zeroPage (h : Tables base m T) (ht : T q = some t) (hf : f % 4096 = 0) (hne : t ≠ f)
    (hj : j < 512) : entryAt (zeroPage m f) t j = entryAt m t j := by
  have hta := (h.frame q t ht).1
  exact load_congr (fun x h1 h2 => fill_outside (by omega))

theorem entryAt_zeroPage_self (m : Mem) (hj : j < 512) : entryAt (zeroPage m f) f j = 0 :=
  load_of_zero (fun b h1 h2 => fill_inside (by omega))

/-- The tree only depends on the memory of its tables. -/
theorem tables_agree (h : Tables base m T) (hag : ∀ p t, T p = some t → AgreeOn m' m t (t + 4096)) :
    Tables base m' T := by
  have hkeep : ∀ p s i, T p = some s → i < 512 → entryAt m' s i = entryAt m s i := by
    intro p s i hs hi
    exact load_congr (fun b h1 h2 => hag p s hs b (by omega) (by omega))
  refine ⟨h.root, h.boot, h.depth, h.frame, h.inj, h.parent, ?_, ?_, h.low⟩
  · intro i p s t hs ht
    rw [hkeep p s i hs (h.parent i p t ht).1]
    exact h.link i p s t hs ht
  · intro i p s hs hp hi hnone
    rw [hkeep p s i hs hi]
    exact h.vacant i p s hs hp hi hnone

end Slots

/-! ### Growing the tree -/

/-- The frames of a supply are aligned, distinct and not in use as tables;
    `0` stands for a failed allocation. -/
structure Fresh (T : Path → Option Nat) (supply : List Nat) : Prop where
  frame : ∀ f ∈ supply, f ≠ 0 → f % 4096 = 0 ∧ f + 4096 ≤ 2 ^ 32
  unused : ∀ f ∈ supply, f ≠ 0 → ∀ p, T p ≠ some f
  nodup : (supply.filter (fun f => f ≠ 0)).Nodup

/-- What is left of a fresh supply is fresh for the tables that were made
    from the rest. -/
theorem fresh_rest {T' : Path → Option Nat} {used rest : List Nat} (h : Fresh T (used ++ rest))
    (hown : ∀ p t, T' p = some t → T p = some t ∨ t ∈ used) : Fresh T' rest := by
  have hnodup := h.nodup
  rw [filter_append, nodup_append] at hnodup
  refine ⟨fun f hf => h.frame f (mem_append_right used hf), fun f hf h0 p hp => ?_,
    hnodup.2.1⟩
  rcases hown p f hp with hold | hin
  · exact h.unused f (mem_append_right used hf) h0 p hold
  · have h0' : decide (f ≠ 0) = true := decide_eq_true h0
    exact hnodup.2.2 f (mem_filter.mpr ⟨hin, h0'⟩) f (mem_filter.mpr ⟨hf, h0'⟩) rfl

theorem fresh_tail {f : Nat} {rest : List Nat} (h : Fresh T ([f] ++ rest)) : Fresh T rest :=
  fresh_rest h (fun _ _ ht => Or.inl ht)

/-- The tree has grown by frames of the supply: the old tables are where
    they were, the entries of the last level are the same, and memory has
    changed in the frames of tables only. -/
structure Grows (base : Nat) (m : Mem) (T : Path → Option Nat) (supply : List Nat)
    (m' : Mem) (T' : Path → Option Nat) (supply' : List Nat) : Prop where
  tables : Tables base m' T'
  mono : ∀ p t, T p = some t → T' p = some t
  fresh : Fresh T' supply'
  used : ∃ used, supply = used ++ supply' ∧ ∀ p t, T' p = some t → T p = some t ∨ t ∈ used
  leaf : ∀ p j, p.length = 3 → j < 512 → leafEntry m' T' p j = leafEntry m T p j
  only : ∀ a, m' a ≠ m a → ∃ p t, T' p = some t ∧ t ≤ a ∧ a < t + 4096

theorem grows_refl (h : Tables base m T) (hf : Fresh T supply) : Grows base m T supply m T supply :=
  ⟨h, fun _ _ ht => ht, hf, ⟨[], rfl, fun _ _ ht => Or.inl ht⟩, fun _ _ _ _ => rfl,
    fun _ hne => absurd rfl hne⟩

theorem grows_trans {m'' : Mem} {T' T'' : Path → Option Nat} {l l' l'' : List Nat}
    (h1 : Grows base m T l m' T' l') (h2 : Grows base m' T' l' m'' T'' l'') :
    Grows base m T l m'' T'' l'' := by
  rcases h1.used with ⟨u1, hu1, ho1⟩
  rcases h2.used with ⟨u2, hu2, ho2⟩
  refine ⟨h2.tables, fun p t ht => h2.mono p t (h1.mono p t ht), h2.fresh, ?_, ?_, ?_⟩
  · refine ⟨u1 ++ u2, by rw [hu1, hu2, append_assoc], fun p t ht => ?_⟩
    rcases ho2 p t ht with ht' | ht'
    · rcases ho1 p t ht' with h | h
      · exact Or.inl h
      · exact Or.inr (mem_append_left _ h)
    · exact Or.inr (mem_append_right _ ht')
  · intro p j hp hj
    rw [h2.leaf p j hp hj, h1.leaf p j hp hj]
  · intro a hne
    by_cases ha : m'' a = m' a
    · rw [ha] at hne
      rcases h1.only a hne with ⟨p, t, ht, hlo, hhi⟩
      exact ⟨p, t, h2.mono p t ht, hlo, hhi⟩
    · exact h2.only a ha

theorem or_flags (hf : f % 4096 = 0) : f ||| PAGE_PRESENT ||| PAGE_WRITE ||| PAGE_USER = f + 7 := by
  rw [Nat.or_assoc, Nat.or_assoc]
  exact or_low 12 hf (by decide)

section Alloc

/-- The memory after a fresh table has been installed. -/
def installed (m : Mem) (s i f : Nat) : Mem := setEntry (zeroPage m f) s i (f + 7)

/-- The tree with a table more. -/
def extended (T : Path → Option Nat) (i : Nat) (p : Path) (f : Nat) : Path → Option Nat :=
  Function.update T (i :: p) (some f)

theorem extended_self : extended T i p f (i :: p) = some f := Function.update_self _ _ _

theorem extended_of_ne (h : q ≠ i :: p) : extended T i p f q = T q :=
  Function.update_of_ne h _ _

/-- Where the tables of the larger tree come from. -/
theorem extended_cases (h : extended T i p f q = some t) :
    (q = i :: p ∧ t = f) ∨ (q ≠ i :: p ∧ T q = some t) := by
  by_cases hq : q = i :: p
  · rw [hq, extended_self, Option.some.injEq] at h
    exact Or.inl ⟨hq, h.symm⟩
  · rw [extended_of_ne hq] at h
    exact Or.inr ⟨hq, h⟩

/-- The old tables are where they were. -/
theorem extended_mono (hnone : T (i :: p) = none) (f : Nat) (ht : T q = some t) :
    extended T i p f q = some t := by
  rw [extended_of_ne]
  · exact ht
  · intro hq
    rw [hq, hnone] at ht
    exact Option.some_ne_none t ht.symm

/-- The slots of the old tables, the one that was written apart. -/
theorem entryAt_installed_old (h : Tables base m T) (hs : T p = some s) (hi : i < 512)
    (hf : f % 4096 = 0) (hnew : ∀ q, T q ≠ some f) (ht : T q = some t) (hj : j < 512)
    (hne : ¬ (p = q ∧ i = j)) : entryAt (installed m s i f) t j = entryAt m t j := by
  have hdis := slots_disjoint h ht hs hj hi (fun e => hne ⟨e.1.symm, e.2.symm⟩)
  have hzero := entryAt_zeroPage h ht hf (fun e => hnew q (e ▸ ht)) hj
  rw [← hzero]
  exact load_store_disjoint hdis

/-- The slots of the new table are empty. -/
theorem entryAt_installed_new (h : Tables base m T) (hs : T p = some s) (hi : i < 512)
    (hf : f % 4096 = 0) (hnew : ∀ q, T q ≠ some f) (hj : j < 512) :
    entryAt (installed m s i f) f j = 0 := by
  have hsa := (h.frame p s hs).1
  have hsf : s ≠ f := fun e => hnew p (e ▸ hs)
  rw [← entryAt_zeroPage_self m (f := f) hj]
  exact load_store_disjoint (by omega)

theorem entryAt_installed_link (hlt : f + 4096 ≤ 2 ^ 32) :
    entryAt (installed m s i f) s i = f + 7 := by
  rw [installed, entryAt_setEntry_self]
  omega

/-- Installing a fresh table keeps the tree a tree. -/
theorem tables_alloc (h : Tables base m T) (hs : T p = some s) (hp : p.length < 3) (hi : i < 512)
    (hnone : T (i :: p) = none) (hleaf : bootLeaf p i = 0) (h0 : f ≠ 0)
    (hf : f % 4096 = 0 ∧ f + 4096 ≤ 2 ^ 32) (hnew : ∀ q, T q ≠ some f) :
    Tables base (installed m s i f) (extended T i p f) := by
  -- The new path leads to no old table, and nothing hangs below it.
  have hold : ∀ q t, T q = some t → q ≠ i :: p := by
    intro q t ht hq
    rw [hq, hnone] at ht
    exact Option.some_ne_none t ht.symm
  have hkeep : ∀ q t, T q = some t → extended T i p f q = some t :=
    fun q t => extended_mono hnone f
  have hbelow : ∀ j t, T (j :: i :: p) ≠ some t := by
    intro j t ht
    rcases (h.parent j (i :: p) t ht).2 with ⟨u, hu⟩
    exact hold (i :: p) u hu rfl
  exact {
    root := hkeep _ _ h.root
    boot := ⟨hkeep _ _ h.boot.1, fun g hg => hkeep _ _ (h.boot.2 g hg)⟩
    depth := by
      intro q t ht
      rcases extended_cases ht with ⟨rfl, _⟩ | ⟨_, ht⟩
      · rw [length_cons]; omega
      · exact h.depth q t ht
    frame := by
      intro q t ht
      rcases extended_cases ht with ⟨_, rfl⟩ | ⟨_, ht⟩
      · exact ⟨hf.1, Nat.pos_of_ne_zero h0, hf.2⟩
      · exact h.frame q t ht
    inj := by
      intro q r t hq hr
      rcases extended_cases hq with ⟨hqe, hqf⟩ | ⟨_, hq⟩
      · rcases extended_cases hr with ⟨hre, _⟩ | ⟨_, hr⟩
        · exact hqe.trans hre.symm
        · exact absurd (hqf ▸ hr) (hnew r)
      · rcases extended_cases hr with ⟨_, hrf⟩ | ⟨_, hr⟩
        · exact absurd (hrf ▸ hq) (hnew q)
        · exact h.inj q r t hq hr
    parent := by
      intro j q t ht
      rcases extended_cases ht with ⟨hq, _⟩ | ⟨_, ht⟩
      · rw [List.cons.injEq] at hq
        rw [hq.1, hq.2]
        exact ⟨hi, s, hkeep p s hs⟩
      · rcases h.parent j q t ht with ⟨hj, u, hu⟩
        exact ⟨hj, u, hkeep q u hu⟩
    link := by
      intro j q u t hu ht
      rcases extended_cases ht with ⟨hq, rfl⟩ | ⟨hq, ht⟩
      · rw [List.cons.injEq] at hq
        rw [hq.2, hkeep p s hs, Option.some.injEq] at hu
        rw [hq.1, ← hu]
        exact ⟨7, Or.inr rfl, entryAt_installed_link hf.2⟩
      · have hj := (h.parent j q t ht).1
        rcases extended_cases hu with ⟨rfl, _⟩ | ⟨_, hu⟩
        · exact absurd ht (hbelow j t)
        · rcases h.link j q u t hu ht with ⟨fl, hfl, he⟩
          refine ⟨fl, hfl, ?_⟩
          rw [entryAt_installed_old h hs hi hf.1 hnew hu hj (fun e => hq (by rw [e.1, e.2]))]
          exact he
    vacant := by
      intro j q u hu hq hj hchild
      have hne : j :: q ≠ i :: p := by
        intro e
        rw [e, extended_self] at hchild
        exact Option.some_ne_none f hchild
      rw [extended_of_ne hne] at hchild
      rcases extended_cases hu with ⟨rfl, rfl⟩ | ⟨_, hu⟩
      · rw [entryAt_installed_new h hs hi hf.1 hnew hj]
        -- A boot directory would be a table already.
        exact (bootLeaf_eq_zero (fun g hg => Ne.symm (hold _ _ (h.boot.2 g hg))) j).symm
      · rw [entryAt_installed_old h hs hi hf.1 hnew hu hj (fun e => hne (by rw [e.1, e.2]))]
        exact h.vacant j q u hu hq hj hchild
    low := by
      intro g k hg
      have hne : [k, g, 0] ≠ i :: p := by
        intro e
        rw [List.cons.injEq] at e
        rw [← e.1, ← e.2, bootLeaf, if_pos hg] at hleaf
        omega
      rw [extended_of_ne hne]
      exact h.low g k hg }

/-- Nothing is mapped differently after a fresh table has been installed. -/
theorem grows_alloc (h : Tables base m T) (hs : T p = some s) (hp : p.length < 3) (hi : i < 512)
    (hnone : T (i :: p) = none) (hleaf : bootLeaf p i = 0) (h0 : f ≠ 0)
    (hfresh : Fresh T (f :: rest)) :
    Grows base m T (f :: rest) (installed m s i f) (extended T i p f) rest := by
  have hf := hfresh.frame f mem_cons_self h0
  have hnew := hfresh.unused f mem_cons_self h0
  have htab := tables_alloc h hs hp hi hnone hleaf h0 hf hnew
  have hmono : ∀ q t, T q = some t → extended T i p f q = some t :=
    fun q t => extended_mono hnone f
  have hown : ∀ q t, extended T i p f q = some t → T q = some t ∨ t ∈ [f] := by
    intro q t ht
    rcases extended_cases ht with ⟨_, rfl⟩ | ⟨_, ht⟩
    · exact Or.inr (mem_singleton.mpr rfl)
    · exact Or.inl ht
  refine ⟨htab, hmono, fresh_rest hfresh hown, ⟨[f], rfl, hown⟩, ?_, ?_⟩
  · intro q j hq hj
    by_cases hqe : q = i :: p
    · -- The new table is empty, as was the place it hangs from.
      rw [hqe, leafEntry_some extended_self, leafEntry_none hnone]
      exact entryAt_installed_new h hs hi hf.1 hnew hj
    · unfold leafEntry
      rw [extended_of_ne hqe]
      cases ht : T q with
      | none => rfl
      | some t =>
        refine entryAt_installed_old h hs hi hf.1 hnew ht hj (fun e => ?_)
        rw [e.1] at hp
        omega
  · intro a hne
    by_cases hin : f ≤ a ∧ a < f + 4096
    · exact ⟨i :: p, f, extended_self, hin⟩
    · refine ⟨p, s, hmono p s hs, ?_⟩
      by_contra hout
      refine hne ?_
      rw [installed, setEntry, store_outside (by omega), zeroPage,
        fill_outside (by omega)]

end Alloc

/-! ### One level of a walk -/

/-- An allocation failed while the supply shrank to `rest`: a `0` was taken,
    or the list was used up and does not tell what the next call returns. -/
def AllocFailed (supply rest : List Nat) : Prop :=
  rest = [] ∨ 0 ∈ supply.take (supply.length - rest.length)

theorem allocFailed_append (used rest : List Nat) :
    AllocFailed (used ++ rest) rest ↔ rest = [] ∨ 0 ∈ used := by
  rw [AllocFailed, length_append, Nat.add_sub_cancel, take_left]

/-- A later failure is a failure of the whole. -/
theorem allocFailed_of_tail {used last : List Nat} (h : AllocFailed rest last)
    (hlast : ∃ u, rest = u ++ last) : AllocFailed (used ++ rest) last := by
  rcases hlast with ⟨u, rfl⟩
  rw [← append_assoc, allocFailed_append]
  rcases (allocFailed_append u last).mp h with h | h
  · exact Or.inl h
  · exact Or.inr (mem_append_right _ h)

section Walk

/-- An entry above a table is a link to it. -/
theorem link_present (h : Tables base m T) (hs : T p = some s) (ht : T (i :: p) = some t) :
    entryAt m s i &&& PAGE_PRESENT ≠ 0 ∧ entryAt m s i &&& ADDR_MASK = t ∧
      entryAt m s i &&& PAGE_SIZE_BIT = 0 := by
  rcases h.link i p s t hs ht with ⟨fl, hfl, he⟩
  have hf := h.frame (i :: p) t ht
  rw [he, and_present, and_sizeBit]
  refine ⟨by omega, addr_link hf.1 (by omega) (by omega), by omega⟩

/-- An allocating walk arrives at the table of the longer path, or fails for
    lack of a page. -/
theorem walkOrAlloc_grows (h : Tables base m T) (hs : T p = some s) (hp : p.length < 3)
    (hi : i < 512) (hleaf : T (i :: p) = none → bootLeaf p i = 0) (hfresh : Fresh T supply) :
    ∃ T', Grows base m T supply (walkOrAlloc m s i supply).mem T'
        (walkOrAlloc m s i supply).supply ∧
      ((walkOrAlloc m s i supply).next = 0 ∨
        T' (i :: p) = some (walkOrAlloc m s i supply).next) ∧
      ((walkOrAlloc m s i supply).next = 0 →
        AllocFailed supply (walkOrAlloc m s i supply).supply) := by
  unfold walkOrAlloc
  cases ht : T (i :: p) with
  | some t =>
    -- The table is there already.
    rcases link_present h hs ht with ⟨hpres, haddr, _⟩
    have hpos := (h.frame (i :: p) t ht).2.1
    simp only [if_pos hpres, haddr]
    exact ⟨T, grows_refl h hfresh, Or.inr ht, fun h0 => absurd h0 hpos.ne'⟩
  | none =>
    have hzero : entryAt m s i = 0 := (h.vacant i p s hs hp hi ht).trans (hleaf ht)
    have habs : ¬ (entryAt m s i &&& PAGE_PRESENT ≠ 0) := by
      rw [hzero, Nat.zero_and]
      exact not_not_intro rfl
    simp only [if_neg habs]
    cases supply with
    | nil => exact ⟨T, grows_refl h hfresh, Or.inl rfl, fun _ => Or.inl rfl⟩
    | cons f rest =>
      simp only
      by_cases h0 : f = 0
      · -- The allocator has no page left; the supply loses a failed call.
        rw [if_pos h0]
        refine ⟨T, ⟨h, fun _ _ hq => hq, fresh_tail hfresh, ⟨[f], rfl, fun _ _ hq => Or.inl hq⟩,
          fun _ _ _ _ => rfl, fun _ hne => absurd rfl hne⟩, Or.inl rfl, fun _ => ?_⟩
        exact (allocFailed_append [f] rest).mpr (Or.inr (mem_singleton.mpr h0.symm))
      · have hf := hfresh.frame f mem_cons_self h0
        rw [if_neg h0, or_flags hf.1]
        exact ⟨extended T i p f, grows_alloc h hs hp hi ht (hleaf ht) h0 hfresh,
          Or.inr extended_self, fun hf0 => absurd hf0 h0⟩

theorem walkReadonly_some (h : Tables base m T) (hs : T p = some s) (ht : T (i :: p) = some t) :
    walkReadonly m s i = t := by
  rcases link_present h hs ht with ⟨hpres, haddr, _⟩
  simp only [walkReadonly, if_neg hpres, haddr]

theorem walkReadonly_none (h : Tables base m T) (hs : T p = some s) (hp : p.length < 3)
    (hi : i < 512) (ht : T (i :: p) = none) (hleaf : bootLeaf p i = 0) :
    walkReadonly m s i = 0 := by
  have hzero : entryAt m s i = 0 := (h.vacant i p s hs hp hi ht).trans hleaf
  rw [walkReadonly, hzero, Nat.zero_and]
  exact if_pos rfl

end Walk

/-! ### Entries of the last level -/

section Leaf

/-- Writing an entry of the last level leaves the tree alone. -/
theorem tables_setLeaf (h : Tables base m T) (ht : T q = some t) (hq : q.length = 3) (hj : j < 512)
    (e : Nat) : Tables base (setEntry m t j e) T := by
  have hkeep : ∀ i p s, T p = some s → p.length < 3 → i < 512 →
      entryAt (setEntry m t j e) s i = entryAt m s i := by
    intro i p s hs hp hi
    refine entryAt_setEntry_of_ne h e ht hs hj hi (fun hqp => ?_)
    rw [← hqp.1] at hp
    omega
  refine ⟨h.root, h.boot, h.depth, h.frame, h.inj, h.parent, ?_, ?_, h.low⟩
  · intro i p s u hs hu
    have hlen := h.depth (i :: p) u hu
    rw [hkeep i p s hs (by rw [length_cons] at hlen; omega) (h.parent i p u hu).1]
    exact h.link i p s u hs hu
  · intro i p s hs hp hi hnone
    rw [hkeep i p s hs hp hi]
    exact h.vacant i p s hs hp hi hnone

end Leaf

end SysRust.Vmm
