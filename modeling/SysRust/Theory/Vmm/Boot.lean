import SysRust.Theory.Vmm.Tables

/-!
# The Boot Tables

What the assembly before the kernel leaves in memory: a tree of six tables
whose directories map the first 4 GB to itself with 2 MB pages. It is the
tree every run of the memory manager starts from.

## Main definitions

* `bootTree`: The six tables by their paths.
* `BssClear`: The memory of the tables before the boot code runs.

## Theorems

* `fillPd_entry`: What the loop leaves in a directory.
* `bootTables_pml4`, `bootTables_pdpt`, `bootTables_pd`: The entries.
* `tables_boot`: The boot tables are such a tree.
-/

namespace SysRust.Vmm

/-! ### The loop over a directory -/

theorem fillPd_outside {pd n ecx eax b : Nat} {m : Mem}
    (h : b < pd + ecx * 8 ∨ pd + (ecx + n) * 8 ≤ b) : fillPd pd n ecx eax m b = m b := by
  induction n generalizing ecx eax m with
  | zero => rfl
  | succ k ih =>
    rw [fillPd, ih (by omega), store_outside (by omega), store_outside (by omega)]

variable {a t i g : Nat}

/-- A low half over a zero high half is the entry. -/
theorem load_low (m : Mem) {v : Nat} (hv : v < 2 ^ 32) (hz : load m (a + 4) 4 = 0) :
    load (store m a 4 v) a 8 = v := by
  rw [show (8 : Nat) = 4 + 4 from rfl, load_add, load_store_self,
    load_store_disjoint (by omega), hz]
  omega

/-- Entry `i` of a directory the loop has gone over. -/
theorem fillPd_entry (pd n ecx eax : Nat) (m : Mem) (i : Nat) (heax : eax < 2 ^ 32)
    (hlo : ecx ≤ i) (hhi : i < ecx + n) :
    entryAt (fillPd pd n ecx eax m) pd i = u32 (eax + (i - ecx) * 0x200000) := by
  induction n generalizing ecx eax m with
  | zero => omega
  | succ k ih =>
    rw [fillPd]
    by_cases hi : i = ecx
    · -- This round writes the entry, and later ones leave it alone.
      subst hi
      have hout := load_congr (m := fillPd pd k (i + 1) (u32 (eax + 0x200000))
        (store (store m (pd + i * 8) 4 eax) (pd + i * 8 + 4) 4 0)) (a := pd + 8 * i) (n := 8)
        (fun b h1 h2 => fillPd_outside (by omega))
      rw [entryAt, hout, Nat.mul_comm i 8, show (8 : Nat) = 4 + 4 from rfl, load_add,
        load_store_self, load_store_disjoint (by omega), load_store_self, u32]
      omega
    · rw [ih (ecx + 1) (u32 (eax + 0x200000)) _ (u32_lt _) (by omega) (by omega)]
      simp only [u32]
      omega

/-! ### Entries of the boot tables -/

/-- The boot code finds the tables zeroed, at an aligned address below 4 GB. -/
structure BssClear (base : Nat) (m : Mem) : Prop where
  aligned : base % 4096 = 0
  pos : 0 < base
  below : base + 0x6000 ≤ 2 ^ 32
  zero : ∀ b, base ≤ b → b < base + 0x6000 → m b = 0

section Entries

variable {base : Nat} {m : Mem}

/-- The loops leave the first two tables alone. -/
theorem bootTables_links (i : Nat) (t : Nat) (ht : t + 8 * i + 8 ≤ base + 0x2000) :
    entryAt (bootTables base m) t i = entryAt (bootLinks base m) t i := by
  refine load_congr (fun b _ hb => ?_)
  unfold bootTables bootPd
  rw [fillPd_outside (by omega), fillPd_outside (by omega),
    fillPd_outside (by omega), fillPd_outside (by omega)]

/-- The boot code writes to its tables only. -/
theorem bootTables_outside (base : Nat) (m : Mem) {b : Nat}
    (h : b < base ∨ base + 0x6000 ≤ b) : bootTables base m b = m b := by
  unfold bootTables bootLinks bootPd bootPdpt
  rw [fillPd_outside (by omega), fillPd_outside (by omega),
    fillPd_outside (by omega), fillPd_outside (by omega),
    store_outside (by omega), store_outside (by omega),
    store_outside (by omega), store_outside (by omega),
    store_outside (by omega)]

/-- The words that no store of the boot code meets are zero. -/
theorem bootLinks_zero (h : BssClear base m) {n : Nat} (hhi : a + n ≤ base + 0x2000)
    (hne : base + 4 ≤ a ∧ (a + n ≤ base + 0x1000 ∨ base + 0x1000 + 28 ≤ a)) :
    load (bootLinks base m) a n = 0 := by
  unfold bootLinks bootPdpt
  rw [load_store_disjoint (by omega), load_store_disjoint (by omega),
    load_store_disjoint (by omega), load_store_disjoint (by omega),
    load_store_disjoint (by omega)]
  exact load_of_zero (fun b h1 h2 => h.zero b (by omega) (by omega))

theorem or_three (ht : t % 4096 = 0) : t ||| 0x03 = t + 3 :=
  or_low 12 ht (by decide)

theorem bootTables_pml4 (h : BssClear base m) (hi : i < 512) :
    entryAt (bootTables base m) base i = if i = 0 then bootPdpt base + 3 else 0 := by
  have ha := h.aligned
  have hb := h.below
  rw [bootTables_links _ _ (by omega)]
  by_cases h0 : i = 0
  · rw [if_pos h0, h0, ← or_three (by unfold bootPdpt; omega)]
    have hlt : (bootPdpt base ||| 0x03) < 2 ^ 32 := by
      rw [or_three (by unfold bootPdpt; omega)]
      unfold bootPdpt
      omega
    unfold entryAt bootLinks
    rw [load_store_disjoint (by unfold bootPdpt; omega),
      load_store_disjoint (by unfold bootPdpt; omega),
      load_store_disjoint (by unfold bootPdpt; omega),
      load_store_disjoint (by unfold bootPdpt; omega)]
    exact load_low m hlt (load_of_zero (fun b h1 h2 => h.zero b (by omega) (by omega)))
  · rw [if_neg h0]
    exact bootLinks_zero h (by omega) (by omega)

/-- The address of a boot table with the flags of its link. -/
theorem bootPd_link (h : BssClear base m) (hg : g < 4) :
    bootPd base g ||| 0x03 = bootPd base g + 3 ∧ (bootPd base g ||| 0x03) < 2 ^ 32 := by
  have ha := h.aligned
  have hb := h.below
  have hor : bootPd base g ||| 0x03 = bootPd base g + 3 := or_three (by unfold bootPd; omega)
  rw [hor]
  unfold bootPd
  omega

theorem bootTables_pdpt (h : BssClear base m) (hi : i < 512) :
    entryAt (bootTables base m) (bootPdpt base) i = if i < 4 then bootPd base i + 3 else 0 := by
  have hz : ∀ a, base + 0x1000 ≤ a → a + 4 ≤ base + 0x2000 → load m a 4 = 0 := fun a h1 h2 =>
    load_of_zero (fun b h3 h4 => h.zero b (by omega) (by omega))
  rw [bootTables_links _ _ (by unfold bootPdpt; omega)]
  by_cases h4 : i < 4
  · rw [if_pos h4, ← (bootPd_link h h4).1]
    have hlt := (bootPd_link h h4).2
    unfold entryAt bootLinks bootPdpt
    -- Each link is the store of its own step; the later ones go elsewhere.
    have hcase : i = 0 ∨ i = 1 ∨ i = 2 ∨ i = 3 := by omega
    rcases hcase with rfl | rfl | rfl | rfl
    · rw [load_store_disjoint (by omega), load_store_disjoint (by omega),
        load_store_disjoint (by omega)]
      refine load_low _ hlt ?_
      rw [load_store_disjoint (by omega)]
      exact hz _ (by omega) (by omega)
    · rw [load_store_disjoint (by omega), load_store_disjoint (by omega)]
      refine load_low _ hlt ?_
      rw [load_store_disjoint (by omega), load_store_disjoint (by omega)]
      exact hz _ (by omega) (by omega)
    · rw [load_store_disjoint (by omega)]
      refine load_low _ hlt ?_
      rw [load_store_disjoint (by omega), load_store_disjoint (by omega),
        load_store_disjoint (by omega)]
      exact hz _ (by omega) (by omega)
    · refine load_low _ hlt ?_
      rw [load_store_disjoint (by omega), load_store_disjoint (by omega),
        load_store_disjoint (by omega), load_store_disjoint (by omega)]
      exact hz _ (by omega) (by omega)
  · rw [if_neg h4]
    unfold bootPdpt
    exact bootLinks_zero h (by omega) (by omega)

/-- A directory is left alone by the loop over another one. -/
theorem fillPd_other {k eax : Nat} (hne : g ≠ k) (hi : i < 512) :
    entryAt (fillPd (bootPd base k) 512 0 eax m) (bootPd base g) i =
      entryAt m (bootPd base g) i :=
  load_congr (fun b _ _ => fillPd_outside (by unfold bootPd at *; omega))

/-- The directories map 2 MB pages to themselves. -/
theorem bootTables_pd (base : Nat) (m : Mem) (hg : g < 4) (hi : i < 512) :
    entryAt (bootTables base m) (bootPd base g) i = (g * 512 + i) * 2 ^ 21 + 0x83 := by
  have hcase : g = 0 ∨ g = 1 ∨ g = 2 ∨ g = 3 := by omega
  unfold bootTables
  rcases hcase with rfl | rfl | rfl | rfl
  · rw [fillPd_other (by decide) hi, fillPd_other (by decide) hi, fillPd_other (by decide) hi,
      fillPd_entry _ _ _ _ _ _ (by decide) (Nat.zero_le i) (by omega), u32]
    omega
  · rw [fillPd_other (by decide) hi, fillPd_other (by decide) hi,
      fillPd_entry _ _ _ _ _ _ (by decide) (Nat.zero_le i) (by omega), u32]
    omega
  · rw [fillPd_other (by decide) hi,
      fillPd_entry _ _ _ _ _ _ (by decide) (Nat.zero_le i) (by omega), u32]
    omega
  · rw [fillPd_entry _ _ _ _ _ _ (by decide) (Nat.zero_le i) (by omega), u32]
    omega

end Entries

/-! ### The tree -/

/-- The six boot tables by their paths. -/
def bootTree (base : Nat) : Path → Option Nat
  | [] => some base
  | [0] => some (bootPdpt base)
  | [g, 0] => if g < 4 then some (bootPd base g) else none
  | _ => none

theorem bootTree_cases {base : Nat} {p : Path} (h : bootTree base p = some t) :
    (p = [] ∧ t = base) ∨ (p = [0] ∧ t = bootPdpt base) ∨
      ∃ g, g < 4 ∧ p = [g, 0] ∧ t = bootPd base g := by
  unfold bootTree at h
  split at h
  · exact Or.inl ⟨rfl, (Option.some.inj h).symm⟩
  · exact Or.inr (Or.inl ⟨rfl, (Option.some.inj h).symm⟩)
  · rename_i g
    by_cases hg : g < 4
    · rw [if_pos hg] at h
      exact Or.inr (Or.inr ⟨g, hg, rfl, (Option.some.inj h).symm⟩)
    · rw [if_neg hg] at h
      exact absurd h (Option.some_ne_none t).symm
  · exact absurd h (Option.some_ne_none t).symm

theorem bootTree_pd (base : Nat) (hg : g < 4) : bootTree base [g, 0] = some (bootPd base g) := by
  rw [bootTree, if_pos hg]

/-- The boot tables are a tree of tables. -/
theorem tables_boot {base : Nat} {m : Mem} (h : BssClear base m) :
    Tables base (bootTables base m) (bootTree base) := by
  have ha := h.aligned
  have hp := h.pos
  have hb := h.below
  exact {
    root := rfl
    boot := ⟨rfl, fun g hg => bootTree_pd base hg⟩
    depth := by
      intro p t ht
      rcases bootTree_cases ht with ⟨rfl, _⟩ | ⟨rfl, _⟩ | ⟨g, _, rfl, _⟩ <;>
        simp only [List.length_nil, List.length_cons] <;> omega
    frame := by
      intro p t ht
      rcases bootTree_cases ht with ⟨_, rfl⟩ | ⟨_, rfl⟩ | ⟨g, hg, _, rfl⟩
      · omega
      · unfold bootPdpt
        omega
      · unfold bootPd
        omega
    inj := by
      intro p q t hp hq
      -- The six frames lie one after the other.
      rcases bootTree_cases hp with ⟨rfl, rfl⟩ | ⟨rfl, rfl⟩ | ⟨g, hg, rfl, rfl⟩ <;>
        rcases bootTree_cases hq with ⟨rfl, e⟩ | ⟨rfl, e⟩ | ⟨k, hk, rfl, e⟩ <;>
        simp only [bootPdpt, bootPd] at e <;>
        first
        | rfl
        | omega
        | rw [show g = k by omega]
    parent := by
      intro i p t ht
      rcases bootTree_cases ht with ⟨e, _⟩ | ⟨e, _⟩ | ⟨g, hg, e, _⟩ <;>
        simp only [reduceCtorEq, List.cons.injEq] at e
      · rw [e.1, e.2]
        exact ⟨by omega, base, rfl⟩
      · rw [e.1, e.2]
        exact ⟨by omega, bootPdpt base, rfl⟩
    link := by
      intro i p s t hs ht
      refine ⟨3, Or.inl rfl, ?_⟩
      rcases bootTree_cases ht with ⟨e, _⟩ | ⟨e, ht⟩ | ⟨g, hg, e, ht⟩ <;>
        simp only [reduceCtorEq, List.cons.injEq] at e
      · rw [e.2] at hs
        rw [e.1, ← Option.some.inj hs, ht, bootTables_pml4 h (by omega), if_pos rfl]
      · rw [e.2] at hs
        rw [e.1, ← Option.some.inj hs, ht, bootTables_pdpt h (by omega), if_pos hg]
    vacant := by
      intro i p s hs hlen hi hnone
      rcases bootTree_cases hs with ⟨rfl, rfl⟩ | ⟨rfl, rfl⟩ | ⟨g, hg, rfl, rfl⟩
      · have h0 : i ≠ 0 := by
          rintro rfl
          exact Option.some_ne_none _ hnone
        rw [bootTables_pml4 h hi, if_neg h0]
        rfl
      · have h4 : ¬ i < 4 := by
          intro h4
          rw [bootTree_pd base h4] at hnone
          exact Option.some_ne_none _ hnone
        rw [bootTables_pdpt h hi, if_neg h4]
        exact (bootLeaf_eq_zero (fun g _ e => by
          simp only [List.cons.injEq, reduceCtorEq, and_false] at e) i).symm
      · rw [bootTables_pd base m hg hi, bootLeaf, if_pos hg]
    low := fun g k _ => by simp only [bootTree] }

end SysRust.Vmm
