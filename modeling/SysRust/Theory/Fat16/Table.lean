import Mathlib.Data.List.Perm.Subperm
import SysRust.Core.Fat16
import SysRust.Lib.Chain

/-!
# Cluster Chains in the FAT

What the driver does to the cached table, as operations on cluster chains.
Freeing clears exactly the entries of one chain. Allocation takes an entry
that is clear. The write loop appends one cluster after the other, and
`Grown` is its invariant: the clusters taken so far form one chain, all of
them were free at the start, and every other entry is what it was.

A chain of used clusters is therefore never touched: its entries are not
clear, so no allocation picks them, and that is the only way the table
changes.

## Main definitions

* `FileChain`: A chain of clusters in use, all inside of the table.
* `Grown`: The table after a number of clusters have been appended.

## Theorems

* `freeChain_spec`: Freeing a chain clears its entries and nothing else.
* `freeChain_returns`: Freeing ends on every table.
* `fatAlloc_cases`: The disk is full, or a free cluster is taken.
* `grown_append`, `grown_full`: One round of the write loop.
* `grown_chain`, `grown_suffix`: What was appended is a chain, and so is what
  follows any of its clusters.
* `grown_keeps`: Chains in use at the start are unchanged.
-/

namespace SysRust.Fat16

open List

theorem fatAt_setFat_self (t : Mem) (c v : Nat) : fatAt (setFat t c v) c = v % 2 ^ 16 :=
  load_store_self t (2 * c) 2 v

variable {c x entries : Nat} {l xs : List Nat} {t : Mem} {p : Cursor}

theorem fatAt_setFat_ne {t : Mem} {v : Nat} (h : x ≠ c) : fatAt (setFat t c v) x = fatAt t x :=
  load_store_disjoint (by omega)

/-- The clusters `l` in use that are met from `c` on. -/
structure FileChain (t : Mem) (entries c : Nat) (l : List Nat) : Prop where
  chain : Chain IsCluster (fatAt t) c l
  inRange : ∀ x ∈ l, x < entries
  used : ∀ x ∈ l, fatAt t x ≠ 0

/-- A chain in use depends only on its own entries. -/
theorem FileChain.congr {t' : Mem} (h : FileChain t entries c l)
    (ht : ∀ x ∈ l, fatAt t' x = fatAt t x) :
    FileChain t' entries c l where
  chain := chain_congr (fun x hx => (ht x hx).symm) h.chain
  inRange := h.inRange
  used := fun x hx => by rw [ht x hx]; exact h.used x hx

theorem FileChain.tail (h : FileChain t entries x (x :: l)) :
    FileChain t entries (fatAt t x) l where
  chain := h.chain.2.2
  inRange := fun y hy => h.inRange y (mem_cons_of_mem _ hy)
  used := fun y hy => h.used y (mem_cons_of_mem _ hy)

theorem fatNext_inside (h : c < entries) :
    fatNext t entries c = fatAt t c := if_neg (Nat.not_le.mpr h)

/-- There are only so many cluster numbers. -/
theorem clusters_length_le (hnd : l.Nodup) (h : ∀ x ∈ l, IsCluster x) : l.length ≤ 0xFFF8 := by
  have hsub : l ⊆ List.range 0xFFF8 := fun x hx => mem_range.mpr (h x hx).2
  have hle := (subperm_of_subset hnd hsub).length_le
  rwa [length_range] at hle

theorem FileChain.length_lt (h : FileChain t entries c l) : l.length < chainBound := by
  have hle := clusters_length_le (chain_nodup h.chain) (chain_links h.chain)
  simp only [chainBound]
  omega

/-! ### Freeing -/

/-- Freeing a chain clears its entries and nothing else. -/
theorem freeChain_spec {fuel : Nat} (h : FileChain t entries c l) (hf : l.length < fuel) :
    ∃ t', freeChain entries fuel t c = some t' ∧ (∀ x ∈ l, fatAt t' x = 0) ∧
      ∀ x, x ∉ l → fatAt t' x = fatAt t x := by
  induction l generalizing t c fuel with
  | nil =>
    cases fuel with
    | zero => omega
    | succ fuel =>
      have hend : ¬ IsCluster c := h.chain
      refine ⟨t, by rw [freeChain, if_neg hend], ?_, fun x _ => rfl⟩
      exact forall_mem_nil _
  | cons y l ih =>
    cases fuel with
    | zero => omega
    | succ fuel =>
      rcases h.chain with ⟨hlink, rfl, _⟩
      have hy : y ∉ l := (nodup_cons.mp (chain_nodup h.chain)).1
      have hnext := fatNext_inside (t := t) (h.inRange y mem_cons_self)
      -- The rest of the chain does not come back to the cleared entry.
      have hkeep : ∀ x ∈ l, fatAt (setFat t y 0) x = fatAt t x := fun x hx =>
        fatAt_setFat_ne (fun he => hy (he ▸ hx))
      rcases ih (h.tail.congr hkeep) (by simpa only [length_cons, Nat.add_lt_add_iff_right]
        using hf) with ⟨t', hfree, hzero, hother⟩
      refine ⟨t', by rw [freeChain, if_pos hlink, hnext, hfree], ?_, ?_⟩
      · intro x hx
        rcases mem_cons.mp hx with rfl | hx
        · rw [hother x hy, fatAt_setFat_self, Nat.zero_mod]
        · exact hzero x hx
      · intro x hx
        rw [mem_cons, not_or] at hx
        rw [hother x hx.2, fatAt_setFat_ne hx.1]

/-- Freeing ends on every table, whatever its entries are: a cluster that is
    met again has a clear entry by then. -/
theorem freeChain_returns (entries fuel : Nat) (t : Mem) (c : Nat) {seen : List Nat}
    (hnd : seen.Nodup) (hseen : ∀ x ∈ seen, IsCluster x ∧ fatAt t x = 0)
    (hf : 0xFFF8 + 1 < fuel + seen.length) : ∃ t', freeChain entries fuel t c = some t' := by
  have hle := clusters_length_le hnd (fun x hx => (hseen x hx).1)
  fun_induction freeChain entries fuel t c generalizing seen with
  | case1 => omega
  | case2 fuel t c hc ih =>
    by_cases hmem : c ∈ seen
    · -- The next value is no cluster, and the loop ends there.
      obtain ⟨fuel, rfl⟩ : ∃ k, fuel = k + 1 := ⟨fuel - 1, by omega⟩
      have hnext : ¬ IsCluster (fatNext t entries c) := by
        rw [fatNext, (hseen c hmem).2]
        by_cases hin : entries ≤ c
        · rw [if_pos hin]
          decide
        · rw [if_neg hin]
          decide
      exact ⟨_, by rw [freeChain, if_neg hnext]⟩
    · have hseen' : ∀ x ∈ c :: seen, IsCluster x ∧ fatAt (setFat t c 0) x = 0 := by
        intro x hx
        by_cases hxc : x = c
        · rw [hxc, fatAt_setFat_self]
          exact ⟨hc, rfl⟩
        · rw [fatAt_setFat_ne hxc]
          exact hseen x (mem_of_ne_of_mem hxc hx)
      have hnd' := nodup_cons.mpr ⟨hmem, hnd⟩
      exact ih hnd' hseen' (by rw [length_cons]; omega)
        (clusters_length_le hnd' (fun x hx => (hseen' x hx).1))
  | case3 fuel t => exact ⟨t, rfl⟩

/-! ### Allocating -/

theorem fatScan_cases (t : Mem) (n i : Nat) :
    (fatScan t n i = 0 ∧ (0 < i → ∀ j, i ≤ j → j < i + n → fatAt t j ≠ 0)) ∨
      (i ≤ fatScan t n i ∧ fatScan t n i < i + n ∧ fatAt t (fatScan t n i) = 0 ∧
        ∀ j, i ≤ j → j < fatScan t n i → fatAt t j ≠ 0) := by
  fun_induction fatScan t n i with
  | case1 => exact Or.inl ⟨rfl, fun _ j h1 h2 => by omega⟩
  | case2 n i hfree =>
    exact Or.inr ⟨Nat.le_refl _, by omega, hfree, fun j h1 h2 => by omega⟩
  | case3 n i hfree ih =>
    rcases ih with ⟨hzero, hnone⟩ | ⟨hlo, hhi, hat, hleast⟩
    · refine Or.inl ⟨hzero, fun _ j h1 h2 => ?_⟩
      by_cases hj : j = i
      · rw [hj]; exact hfree
      · exact hnone (by omega) j (by omega) (by omega)
    · refine Or.inr ⟨by omega, by omega, hat, fun j h1 h2 => ?_⟩
      by_cases hj : j = i
      · rw [hj]; exact hfree
      · exact hleast j (by omega) h2

/-- The disk is full and nothing changes, or the first free cluster is
    taken. -/
theorem fatAlloc_cases (entries : Nat) (t : Mem) :
    ((fatAlloc entries t).2 = 0 ∧ ∀ j, 2 ≤ j → j < u16 entries → fatAt t j ≠ 0) ∨
      ∃ c, 2 ≤ c ∧ c < u16 entries ∧ fatAt t c = 0 ∧ (∀ j, 2 ≤ j → j < c → fatAt t j ≠ 0) ∧
        fatAlloc entries t = (setFat t c 0xFFFF, c) := by
  unfold fatAlloc
  rcases fatScan_cases t (u16 entries - 2) 2 with ⟨hzero, hnone⟩ | ⟨hlo, hhi, hat, hleast⟩
  · rw [if_pos hzero]
    exact Or.inl ⟨rfl, fun j h1 h2 => hnone (by omega) j h1 (by omega)⟩
  · rw [if_neg (by omega)]
    exact Or.inr ⟨_, hlo, by omega, hat, hleast, rfl⟩

/-- The clusters `l` have been appended to an empty chain, starting from the
    table `t`. -/
structure Grown (t : Mem) (entries : Nat) (p : Cursor) (l : List Nat) : Prop where
  frame : ∀ x, x ∉ l → fatAt p.table x = fatAt t x
  fresh : ∀ x ∈ l, fatAt t x = 0 ∧ 2 ≤ x ∧ x < u16 entries
  used : ∀ x ∈ l, fatAt p.table x ≠ 0
  nodup : l.Nodup
  ends : (l = [] ∧ p.firstCluster = 0 ∧ p.prevCluster = 0) ∨
    ∃ xs, l = xs ++ [p.prevCluster] ∧
      Seg (fatAt p.table) p.firstCluster xs p.prevCluster ∧
      fatAt p.table p.prevCluster = 0xFFFF

theorem grown_start (t : Mem) (entries : Nat) (d : Disk) :
    Grown t entries
      { table := t, disk := d, firstCluster := 0, prevCluster := 0, offset := 0 } [] where
  frame := fun _ _ => rfl
  fresh := forall_mem_nil _
  used := forall_mem_nil _
  nodup := nodup_nil
  ends := Or.inl ⟨rfl, rfl, rfl⟩

/-- Only the table and the ends of the chain matter. -/
theorem Grown.at_disk (h : Grown t entries p l) (d : Disk) (o : Nat) :
    Grown t entries { p with disk := d, offset := o } l :=
  ⟨h.frame, h.fresh, h.used, h.nodup, h.ends⟩

/-- The first cluster of a chain that is not empty is one of its clusters. -/
theorem Grown.first_mem (h : Grown t entries p l) (hl : l ≠ []) : p.firstCluster ∈ l := by
  rcases h.ends with ⟨rfl, _⟩ | ⟨xs, rfl, hseg, _⟩
  · exact absurd rfl hl
  · cases xs with
    | nil => exact mem_singleton.mpr hseg
    | cons x xs => exact hseg.1 ▸ mem_cons_self

theorem Grown.first_ne (h : Grown t entries p l) (hl : l ≠ []) : p.firstCluster ≠ 0 := by
  have hge := (h.fresh _ (h.first_mem hl)).2.1
  omega

/-- The first cluster fits into its field of the directory entry. -/
theorem Grown.first_lt (h : Grown t entries p l) : p.firstCluster < 2 ^ 16 := by
  by_cases hl : l = []
  · rcases h.ends with ⟨_, h0, _⟩ | ⟨xs, hxs, _⟩
    · rw [h0]; omega
    · exact absurd (hl.symm.trans hxs) (by simp)
  · have hlt := (h.fresh _ (h.first_mem hl)).2.2
    simp only [u16] at hlt
    omega

/-- Changing entries of the new cluster and of the last one keeps the rest. -/
theorem link_other (t : Mem) {p : Nat} (hc : x ≠ c) (hp : x ≠ p) :
    fatAt (setFat (setFat t c 0xFFFF) p c) x = fatAt t x := by
  rw [fatAt_setFat_ne hp, fatAt_setFat_ne hc]

/-- Appending a cluster extends the chain by the first that is free. -/
theorem grown_append {q : Cursor} (h : Grown t entries p l)
    (hq : appendCluster entries p = some q) :
    Grown t entries q (l ++ [q.prevCluster]) ∧ q.prevCluster ∉ l ∧ 2 ≤ q.prevCluster ∧
      q.disk = p.disk ∧ q.offset = p.offset ∧
      ∀ j, 2 ≤ j → j < q.prevCluster → fatAt p.table j ≠ 0 := by
  rcases fatAlloc_cases entries p.table with ⟨hfull, _⟩ | ⟨c, hlo, hhi, hfree, hleast, halloc⟩
  · rw [appendCluster, if_pos hfull] at hq
    cases hq
  · have hc0 : c ≠ 0 := by omega
    have hc16 : c % 2 ^ 16 = c :=
      Nat.mod_eq_of_lt (Nat.lt_trans hhi (Nat.mod_lt _ (Nat.two_pow_pos 16)))
    have hcl : c ∉ l := fun hm => h.used c hm hfree
    have hfresh : ∀ x ∈ l ++ [c], fatAt t x = 0 ∧ 2 ≤ x ∧ x < u16 entries := by
      refine forall_mem_append.mpr ⟨h.fresh, forall_mem_singleton.mpr ?_⟩
      rw [← h.frame c hcl]
      exact ⟨hfree, hlo, hhi⟩
    have hnodup : (l ++ [c]).Nodup :=
      h.nodup.append (nodup_singleton c) (disjoint_singleton.mpr hcl)
    rw [appendCluster, halloc, if_neg hc0, Option.some.injEq] at hq
    rcases h.ends with ⟨rfl, hfirst, hprev⟩ | ⟨xs, hl, hseg, hlast⟩
    · -- The first cluster: there is none before it to link.
      rw [if_neg (not_not.mpr hprev), if_pos hfirst] at hq
      subst hq
      have hself : fatAt (setFat p.table c 0xFFFF) c = 0xFFFF := fatAt_setFat_self _ _ _
      refine ⟨⟨fun x hx => ?_, hfresh, fun x hx => ?_, hnodup, Or.inr ⟨[], rfl, rfl, hself⟩⟩,
        hcl, hlo, rfl, rfl, hleast⟩
      · rw [fatAt_setFat_ne (fun he => hx (mem_singleton.mpr he)),
          h.frame x not_mem_nil]
      · rw [mem_singleton.mp hx, hself]
        omega
    · -- A later one: the last cluster so far now points to it.
      have hpl : p.prevCluster ∈ l := hl ▸ mem_append_right _ mem_cons_self
      have hpge := (h.fresh _ hpl).2.1
      have hp0 : p.prevCluster ≠ 0 := by omega
      have hcp : c ≠ p.prevCluster := fun he => hcl (he ▸ hpl)
      have hxp : p.prevCluster ∉ xs := by
        have hnd := h.nodup
        rw [hl, nodup_append] at hnd
        exact fun hm => hnd.2.2 _ hm _ mem_cons_self rfl
      have hself : fatAt (setFat (setFat p.table c 0xFFFF) p.prevCluster c) c = 0xFFFF := by
        rw [fatAt_setFat_ne hcp, fatAt_setFat_self]
        rfl
      have hlink : fatAt (setFat (setFat p.table c 0xFFFF) p.prevCluster c) p.prevCluster = c := by
        rw [fatAt_setFat_self, hc16]
      rw [if_pos hp0, if_neg (h.first_ne (ne_nil_of_mem hpl))] at hq
      subst hq
      refine ⟨⟨fun x hx => ?_, hfresh, fun x hx => ?_, hnodup, Or.inr ⟨l, rfl, ?_, hself⟩⟩,
        hcl, hlo, rfl, rfl, hleast⟩
      · rw [mem_append, mem_singleton, not_or] at hx
        rw [link_other _ hx.2 (fun he => hx.1 (he ▸ hpl)), h.frame x hx.1]
      · rcases mem_append.mp hx with hx | hx
        · by_cases hxe : x = p.prevCluster
          · rw [hxe, hlink]; exact hc0
          · have hxc : x ≠ c := fun he => hcl (he ▸ hx)
            rw [link_other _ hxc hxe]
            exact h.used x hx
        · rw [mem_singleton.mp hx, hself]
          omega
      · have hkeep : ∀ x ∈ xs, fatAt p.table x =
            fatAt (setFat (setFat p.table c 0xFFFF) p.prevCluster c) x := by
          intro x hx
          have hxl : x ∈ l := hl ▸ mem_append_left _ hx
          have hxc : x ≠ c := fun he => hcl (he ▸ hxl)
          have hxe : x ≠ p.prevCluster := fun he => hxp (he ▸ hx)
          exact (link_other _ hxc hxe).symm
        have hsnoc := seg_snoc hseg hkeep
        rw [hlink, ← hl] at hsnoc
        exact hsnoc

/-- When the disk is full, no allocatable cluster is free. -/
theorem grown_full (hq : appendCluster entries p = none) :
    ∀ j, 2 ≤ j → j < u16 entries → fatAt p.table j ≠ 0 := by
  rcases fatAlloc_cases entries p.table with ⟨_, hfull⟩ | ⟨c, hlo, _, _, _, halloc⟩
  · exact hfull
  · rw [appendCluster, halloc, if_neg (by simp only; omega)] at hq
    cases hq

/-! ### The chain that was appended -/

/-- The table has a whole number of sectors, so the truncated number of
    entries stays below the values that end a chain. -/
theorem u16_entries_le (h : entries % 256 = 0) : u16 entries ≤ 0xFF00 ∧ u16 entries ≤ entries := by
  simp only [u16]
  omega

theorem grown_chain (h : Grown t entries p l) (he : entries % 256 = 0) :
    FileChain p.table entries p.firstCluster l := by
  have hle := u16_entries_le he
  have hlink : ∀ x ∈ l, IsCluster x := by
    intro x hx
    have hb := (h.fresh x hx).2
    exact ⟨hb.1, by omega⟩
  refine ⟨?_, fun x hx => Nat.lt_of_lt_of_le (h.fresh x hx).2.2 hle.2, h.used⟩
  rcases h.ends with ⟨rfl, hfirst, _⟩ | ⟨xs, rfl, hseg, hlast⟩
  · rw [hfirst]
    exact fun hc => absurd hc.1 (by omega)
  · refine chain_of_seg ((seg_append _ _ _ _ _).mpr ⟨_, hseg, rfl, hlast⟩) hlink ?_
    exact fun hc => absurd hc.2 (by omega)

/-- What follows any of the appended clusters is a chain of them. -/
theorem grown_suffix (h : Grown t entries p l) (he : entries % 256 = 0) (hc : c ∈ l) :
    ∃ ys, ys ⊆ l ∧ FileChain p.table entries c ys := by
  have hall := grown_chain h he
  rcases append_of_mem hc with ⟨xs, ys, hl⟩
  have hsub : c :: ys ⊆ l := hl ▸ subset_append_right _ _
  refine ⟨c :: ys, hsub, ?_, fun x hx => hall.inRange x (hsub hx),
    fun x hx => hall.used x (hsub hx)⟩
  have hchain := hall.chain
  rw [hl] at hchain
  exact chain_suffix hchain

/-- A chain that was in use at the start shares no cluster with the new
    one. -/
theorem grown_disjoint (h : Grown t entries p l) (hx : FileChain t entries c xs) :
    List.Disjoint xs l :=
  fun y hy hyl => hx.used y hy (h.fresh y hyl).1

/-- A chain that was in use at the start is unchanged. -/
theorem grown_keeps (h : Grown t entries p l) (hx : FileChain t entries c xs) :
    FileChain p.table entries c xs :=
  hx.congr (fun y hy => h.frame y (fun hyl => grown_disjoint h hx hy hyl))

end SysRust.Fat16
