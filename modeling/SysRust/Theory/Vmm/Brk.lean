import SysRust.Core.Brk
import SysRust.Theory.Vmm.Runs

/-!
# Growing the Program Break

What a program stored below its break should still be there after the break
has grown. The pages that `sys_brk` maps begin with the page of the old
break. If the old break is a multiple of the page size that page is new;
otherwise it holds the program's last bytes, and above 4 GB it is mapped to
another frame: what `getPhysical` returns for the bytes of the page below
the old break changes, and what was stored there is gone.

The four-level tables tell addresses apart by 48 bits, so breaks are
addresses of at most 48 bits here. A run begins with any such break, over
any tables that the memory manager can have set up above the first 4 GB.

## Main definitions

* `Session`, `Call`, `breaks`: A break, the calls, and all runs.
* `Kept`: A call that succeeds keeps the translations below the old break.
* `Whole`: The old break does not cut a page that the call maps.
* `Ample`: The page allocator has all the pages a call can need.
* `Fills`: What the loop over the pages is to leave.

## Theorems

* `growPages_spec`: The loop sets the entries of its pages and no others.
* `inv_reachable`: The tables stay a tree.
* `kept_of_whole`: Pages that are not cut are kept.
* `lost_of_cut`: A page that is cut is lost.
* `brk_kept_iff`: Both, in every state of every run.
* `brk_loses_page`: A page with data that is mapped to another frame.
-/

namespace SysRust.Brk

open Vmm List

/-- The two addresses have the same entry of the last level. -/
def SameEntry (v w : Nat) : Prop := ptPath v = ptPath w ∧ ptIndex v = ptIndex w

/-- The loop maps a page with the entry of `w`. -/
def Touches (page n w : Nat) : Prop :=
  ∃ k, k < n ∧ BOOT_END ≤ page + k * 0x1000 ∧ SameEntry (page + k * 0x1000) w

theorem touches_succ (page n w : Nat) :
    Touches page (n + 1) w ↔
      (BOOT_END ≤ page ∧ SameEntry page w) ∨ Touches (page + 0x1000) n w := by
  have hnext : ∀ k, page + 0x1000 + k * 0x1000 = page + (k + 1) * 0x1000 := by
    intro k
    omega
  constructor
  · rintro ⟨k, hk, hrest⟩
    cases k with
    | zero =>
      exact Or.inl hrest
    | succ j =>
      refine Or.inr ⟨j, by omega, ?_⟩
      rw [hnext]
      exact hrest
  · rintro (h | ⟨k, hk, hrest⟩)
    · refine ⟨0, Nat.succ_pos n, ?_⟩
      exact h
    · rw [hnext] at hrest
      exact ⟨k + 1, by omega, hrest⟩

variable {T T' : Path → Option Nat} {f v w base addr b : Nat}

/-- What the loop is to leave: the tables stay a tree, made larger from the
    supply; entries that are not of its pages are as they were; and with
    enough frames it runs to its end and every page gets a frame of the
    supply. -/
structure Fills (base page n : Nat) (supply : List Nat) (m : Mem) (T T' : Path → Option Nat)
    (used : List Nat) (g : Grown) : Prop where
  tables : Tables base g.mem T'
  rest : supply = used ++ g.supply
  own : ∀ p t, T' p = some t → T p = some t ∨ t ∈ used
  others : ∀ w, ¬ Touches page n w → leafOf g.mem T' w = leafOf m T w
  filled : 0 ∉ supply → 4 * n < supply.length → g.done = true ∧
    ∀ w, Touches page n w → ∃ phys ∈ supply, leafOf g.mem T' w = mapped phys 3

section Fills

variable {page n phys : Nat} {supply rest used used' : List Nat} {m : Mem} {g : Grown}

/-- The loop stops for lack of frames. -/
theorem fills_stop (used : List Nat) (h : Tables base m T)
    (hshort : 0 ∉ used ++ rest → used ++ rest = []) :
    Fills base page n (used ++ rest) m T T used { mem := m, supply := rest, done := false } := by
  refine ⟨h, rfl, fun _ _ ht => Or.inl ht, fun _ _ => rfl, fun hno hlen => ?_⟩
  rw [hshort hno] at hlen
  exact absurd hlen (Nat.not_lt_zero _)

/-- A page of the first 4 GB is passed over. -/
theorem fills_skip (hboot : ¬ BOOT_END ≤ page)
    (h : Fills base (page + 0x1000) n supply m T T' used g) :
    Fills base page (n + 1) supply m T T' used g := by
  have htouch : ∀ w, Touches page (n + 1) w ↔ Touches (page + 0x1000) n w := by
    intro w
    rw [touches_succ]
    simp only [hboot, false_and, false_or]
  refine { h with
    others := fun w hw => h.others w (fun hl => hw ((htouch w).mpr hl)),
    filled := fun hno hl => ?_ }
  rcases h.filled hno (by omega) with ⟨hdone, hleaf⟩
  exact ⟨hdone, fun w hw => hleaf w ((htouch w).mp hw)⟩

variable {T1 : Path → Option Nat} {r : Mem × List Nat}

/-- The pages of a turn and the ones after it are filled. -/
theorem filled_turn (hused : rest = used ++ r.2) (hlen : rest.length ≤ r.2.length + 3)
    (hset : 3 < rest.length → 0 ∉ rest → leafOf r.1 T1 page = mapped phys 3)
    (h : Fills base (page + 0x1000) n r.2 r.1 T1 T' used' g) (hno : 0 ∉ phys :: rest)
    (hl : 4 * (n + 1) < (phys :: rest).length) :
    g.done = true ∧ ∀ w, Touches page (n + 1) w →
      ∃ f ∈ phys :: rest, leafOf g.mem T' w = mapped f 3 := by
  rw [length_cons] at hl
  have hno' : 0 ∉ rest := fun hin => hno (mem_cons_of_mem _ hin)
  have hsub : ∀ f ∈ r.2, f ∈ rest := by
    intro f hf
    rw [hused]
    exact mem_append_right used hf
  rcases h.filled (fun hin => hno' (hsub 0 hin)) (by omega) with ⟨hdone, hleaf⟩
  refine ⟨hdone, fun w hw => ?_⟩
  by_cases hlater : Touches (page + 0x1000) n w
  · rcases hleaf w hlater with ⟨f, hf, he⟩
    exact ⟨f, mem_cons_of_mem _ (hsub f hf), he⟩
  · -- The last turn for this entry is the present one.
    rcases (touches_succ page n w).mp hw with ⟨_, hsame⟩ | hlater'
    · refine ⟨phys, mem_cons_self, ?_⟩
      rw [h.others w hlater, leafOf, ← hsame.1, ← hsame.2]
      exact hset (by omega) hno'
    · exact absurd hlater' hlater

/-- A page is mapped, and the loop goes on. -/
theorem fills_map (hboot : BOOT_END ≤ page) (heff : Vmm.Effect base m T page r.1 T1)
    (hused : rest = used ++ r.2) (hown : ∀ p t, T1 p = some t → T p = some t ∨ t ∈ used)
    (hlen : rest.length ≤ r.2.length + 3)
    (hset : 3 < rest.length → 0 ∉ rest → leafOf r.1 T1 page = mapped phys 3)
    (h : Fills base (page + 0x1000) n r.2 r.1 T1 T' used' g) :
    Fills base page (n + 1) (phys :: rest) m T T' (phys :: (used ++ used')) g where
  tables := h.tables
  rest := by rw [cons_append, append_assoc, ← h.rest, ← hused]
  own := by
    intro p t ht
    rcases h.own p t ht with ht1 | hin
    · rcases hown p t ht1 with hold | hin
      · exact Or.inl hold
      · exact Or.inr (mem_cons_of_mem _ (mem_append_left _ hin))
    · exact Or.inr (mem_cons_of_mem _ (mem_append_right _ hin))
  others := by
    intro w hw
    rw [touches_succ, not_or] at hw
    rw [h.others w hw.2]
    exact heff.others w (fun he => hw.1 ⟨hboot, he⟩)
  filled := filled_turn hused hlen hset h

end Fills

theorem growPages_spec {n : Nat} : ∀ {page : Nat} {supply : List Nat} {m : Mem}
    {T : Path → Option Nat}, Tables base m T → Fresh T supply →
    (∀ k, k < n → BOOT_END ≤ page + k * 0x1000 → High (page + k * 0x1000)) →
    ∃ T' used, Fills base page n supply m T T' used (growPages base n page supply m) := by
  -- Induction on the pages that are left; each turn grows the tree.
  induction n with
  | zero =>
    intro page supply m T h _ _
    refine ⟨T, [], h, rfl, fun _ _ ht => Or.inl ht, fun _ _ => rfl, fun _ _ => ⟨rfl, ?_⟩⟩
    rintro w ⟨k, hk, _⟩
    exact absurd hk (Nat.not_lt_zero k)
  | succ n ih =>
    intro page supply m T h hfresh hhigh
    have hhigh' : ∀ k, k < n → BOOT_END ≤ page + 0x1000 + k * 0x1000 →
        High (page + 0x1000 + k * 0x1000) := by
      intro k hk hb
      have hnext : page + 0x1000 + k * 0x1000 = page + (k + 1) * 0x1000 := by omega
      rw [hnext] at hb ⊢
      exact hhigh (k + 1) (by omega) hb
    unfold growPages
    by_cases hboot : BOOT_END ≤ page
    swap
    · rw [if_neg hboot]
      rcases ih h hfresh hhigh' with ⟨T', used, hfills⟩
      exact ⟨T', used, fills_skip hboot hfills⟩
    rw [if_pos hboot]
    cases supply with
    | nil => exact ⟨T, [], fills_stop [] h (fun _ => rfl)⟩
    | cons phys rest =>
      by_cases h0 : phys = 0
      · simp only [if_pos h0]
        exact ⟨T, [phys], fills_stop [phys] h
          (fun hno => absurd (h0 ▸ mem_cons_self) hno)⟩
      simp only [if_neg h0]
      have hpage : High page := by
        have := hhigh 0 (Nat.succ_pos n)
        exact this hboot
      rcases mapPage_effect h hpage phys (PAGE_PRESENT ||| PAGE_WRITE) (fresh_tail hfresh)
        with ⟨T1, used, heff, hused, hown, hset⟩
      have hfresh1 := fresh_rest (hused ▸ fresh_tail hfresh) hown
      rcases ih heff.tables hfresh1 hhigh' with ⟨T', used', hfills⟩
      exact ⟨T', _, fills_map hboot heff hused hown (mapPage_supply _ _ _ _ _ _).2
        (fun hl hno => hset (not_allocFailed _ _ _ _ m hl hno)) hfills⟩

/-! ### Runs -/

/-- A program's break and the frames that have been handed out. -/
structure Session where
  brk : Break
  frames : List Nat

/-- The memory manager below. -/
def Session.vmm (s : Session) : Vmm.Session where
  mem := s.brk.mem
  base := s.brk.pml4
  frames := s.frames
  maps := fun _ => none

/-- A call and what the page allocator returns during it. -/
structure Call where
  addr : Nat
  supply : List Nat

/-- The allocator offers frames that are neither tables nor handed out nor
    mapped anywhere. -/
structure Session.Offers (s : Session) (supply : List Nat) : Prop where
  frames : s.vmm.Offers supply
  unmapped : ∀ f ∈ supply, f ≠ 0 → ∀ v, High v →
    pageOf (getPhysical s.brk.pml4 v s.brk.mem) ≠ f

/-- The end of the addresses that the tables tell apart. -/
def ADDRESS_END : Nat := 2 ^ 48

/-- The session after a call. -/
def Session.after (s : Session) (c : Call) : Session where
  brk := (sysBrk c.addr c.supply s.brk).1
  frames := s.frames ++
    (c.supply.take (c.supply.length - (sysBrk c.addr c.supply s.brk).2.2.length)).filter
      (fun f => f ≠ 0)

/-- All runs of calls, from any break and any tables above the first 4 GB. -/
def breaks : Machine Session Call where
  start := fun s => s.brk.currentBrk ≤ ADDRESS_END ∧
    ∃ v, (sessions.restrict AboveBoot).Reachable v ∧ s.brk.mem = v.mem ∧ s.brk.pml4 = v.base ∧
      s.frames = v.frames
  allows := fun s c => c.addr ≤ ADDRESS_END ∧ s.Offers c.supply
  exec := fun s c => some (s.after c)

/-- If the call returns the break it was asked for, then what lies above 4 GB
    and below the old break is where it was. -/
def Kept (s : Session) (c : Call) : Prop :=
  (sysBrk c.addr c.supply s.brk).2.1 = c.addr →
    ∀ v, BOOT_END ≤ v → v < s.brk.currentBrk →
      getPhysical s.brk.pml4 v (s.after c).brk.mem = getPhysical s.brk.pml4 v s.brk.mem

/-- The call does not grow the break, or the old break does not cut a page
    above 4 GB. -/
def Whole (s : Session) (c : Call) : Prop :=
  c.addr < s.brk.currentBrk ∨ s.brk.currentBrk < BOOT_END ∨ s.brk.currentBrk % 0x1000 = 0

instance (s : Session) (c : Call) : Decidable (Whole s c) := inferInstanceAs (Decidable (_ ∨ _))

/-- The supply has a frame and three tables for every page of the call. -/
def Ample (s : Session) (c : Call) : Prop :=
  0 ∉ c.supply ∧ 4 * pageCount s.brk.currentBrk c.addr < c.supply.length

instance (s : Session) (c : Call) : Decidable (Ample s c) := inferInstanceAs (Decidable (_ ∧ _))

/-! ### Pages of 48 bits -/

theorem high_of_boot (hlo : BOOT_END ≤ v) (hhi : v < ADDRESS_END) : High v := by
  unfold High pml4Index pdptIndex
  rw [index_eq, index_eq]
  simp only [BOOT_END, ADDRESS_END] at hlo hhi
  omega

theorem page_of_sameEntry (hv : v < ADDRESS_END) (hw : w < ADDRESS_END) (h : SameEntry v w) :
    v / 0x1000 = w / 0x1000 := by
  rcases h with ⟨hpath, hidx⟩
  simp only [ptPath, List.cons.injEq, and_true, pdIndex, pdptIndex, pml4Index, index_eq] at hpath
  simp only [ptIndex, index_eq] at hidx
  simp only [ADDRESS_END] at hv hw
  omega

/-- The pages of a call are addresses. -/
theorem page_lt {k : Nat} (haddr : addr ≤ ADDRESS_END) (hk : k < pageCount b addr) :
    pageOf b + k * 0x1000 < ADDRESS_END := by
  have hend : endPageOf addr ≤ ADDRESS_END := by
    simp only [endPageOf, pageOf, u64, ADDRESS_END] at haddr ⊢
    omega
  simp only [pageCount] at hk
  omega

/-- No page of a call is below the page of the old break, so only that page
    can hold an address below the break, and only if the break cuts it. -/
theorem not_touches (haddr : addr ≤ ADDRESS_END) (hb : b ≤ ADDRESS_END) (hlo : BOOT_END ≤ v)
    (hv : v < b) (hwhole : b < BOOT_END ∨ b % 0x1000 = 0) :
    ¬ Touches (pageOf b) (pageCount b addr) v := by
  rintro ⟨k, hk, _, hsame⟩
  have hpage := page_of_sameEntry (page_lt haddr hk) (by omega) hsame
  simp only [pageOf] at hpage
  omega

/-- The page that an unaligned break cuts is the first page of the call. -/
theorem touches_cut (haddr : addr ≤ ADDRESS_END) (hle : b ≤ addr) (hboot : BOOT_END ≤ b)
    (hcut : b % 0x1000 ≠ 0) : Touches (pageOf b) (pageCount b addr) (pageOf b) := by
  refine ⟨0, ?_, ?_, ?_⟩
  · simp only [pageCount, endPageOf, pageOf, u64, ADDRESS_END] at haddr ⊢
    omega
  · simp only [pageOf, BOOT_END] at hboot ⊢
    omega
  · rw [Nat.zero_mul, Nat.add_zero]
    exact ⟨rfl, rfl⟩

/-! ### One call -/

/-- The call gets to the loop. -/
def Grows (s : Session) (c : Call) : Prop := s.brk.currentBrk ≤ c.addr ∧ BOOT_END ≤ c.addr

instance (s : Session) (c : Call) : Decidable (Grows s c) := inferInstanceAs (Decidable (_ ∧ _))

/-- What a call does: the tables stay a tree in frames that were handed out,
    entries it does not touch are as they were, and with an ample supply it
    succeeds and every entry it touches gets a frame of the supply. -/
structure Effect (s : Session) (c : Call) (T T' : Path → Option Nat) : Prop where
  inv : Vmm.Inv (s.after c).vmm T'
  keeps : ∀ w, ¬ Touches (pageOf s.brk.currentBrk) (pageCount s.brk.currentBrk c.addr) w →
    leafOf (s.after c).brk.mem T' w = leafOf s.brk.mem T w
  sets : Ample s c → Grows s c →
    ((sysBrk c.addr c.supply s.brk).2.1 = c.addr ∧ (s.after c).brk.currentBrk = c.addr) ∧
    ∀ w, Touches (pageOf s.brk.currentBrk) (pageCount s.brk.currentBrk c.addr) w →
      ∃ phys ∈ c.supply, leafOf (s.after c).brk.mem T' w = mapped phys 3

variable {c : Call} {s : Session}

/-- A call that does not get to the loop changes neither tables nor frames. -/
theorem sysBrk_idle (hno : ¬ Grows s c) :
    (s.after c).brk.mem = s.brk.mem ∧ (s.after c).brk.pml4 = s.brk.pml4 := by
  simp only [Session.after, sysBrk]
  split_ifs with h0 hlt hboot
  · exact ⟨rfl, rfl⟩
  · exact ⟨rfl, rfl⟩
  · exact absurd ⟨Nat.not_lt.mp hlt, hboot⟩ hno
  · exact absurd ⟨Nat.not_lt.mp hlt, hboot⟩ hno
  · exact ⟨rfl, rfl⟩

/-- A call that gets to the loop does what the loop does. -/
theorem sysBrk_loop (h : Grows s c) {g : Grown}
    (hg : growPages s.brk.pml4 (pageCount s.brk.currentBrk c.addr) (pageOf s.brk.currentBrk)
      c.supply s.brk.mem = g) :
    (s.after c).brk.mem = g.mem ∧ (s.after c).brk.pml4 = s.brk.pml4 ∧
      (sysBrk c.addr c.supply s.brk).2.2 = g.supply ∧
      (g.done = true → (sysBrk c.addr c.supply s.brk).2.1 = c.addr ∧
        (s.after c).brk.currentBrk = c.addr) := by
  have h0 : c.addr ≠ 0 := by
    have hboot := h.2
    simp only [BOOT_END] at hboot
    omega
  have hlt : ¬ c.addr < s.brk.currentBrk := Nat.not_lt.mpr h.1
  simp only [Session.after, sysBrk, if_neg h0, if_neg hlt, if_pos h.2, hg]
  by_cases hdone : g.done = true
  · rw [if_pos hdone]
    exact ⟨rfl, rfl, rfl, fun _ => ⟨rfl, rfl⟩⟩
  · rw [if_neg hdone]
    exact ⟨rfl, rfl, rfl, fun hd => absurd hd hdone⟩

theorem sysBrk_effect (h : Vmm.Inv s.vmm T) (haddr : c.addr ≤ ADDRESS_END)
    (ho : s.Offers c.supply) : ∃ T', Effect s c T T' := by
  by_cases hgrows : Grows s c
  swap
  · rcases sysBrk_idle hgrows with ⟨hmem, hpml4⟩
    refine ⟨T, ⟨⟨?_, fun p t ht => ?_⟩, fun w _ => by rw [hmem], fun _ hg => absurd hg hgrows⟩⟩
    · simp only [Session.vmm, hmem, hpml4]
      exact h.tables
    · simp only [Session.vmm, hpml4]
      exact (h.owned p t ht).imp_right (mem_append_left _)
  have hhigh : ∀ k, k < pageCount s.brk.currentBrk c.addr →
      BOOT_END ≤ pageOf s.brk.currentBrk + k * 0x1000 →
      High (pageOf s.brk.currentBrk + k * 0x1000) :=
    fun k hk hb => high_of_boot hb (page_lt haddr hk)
  rcases growPages_spec h.tables (fresh_of_offers h ho.frames) hhigh with
    ⟨T', used, htab, hused, hown, hkeep, hall⟩
  simp only [Session.vmm] at htab hused hkeep hall
  rcases sysBrk_loop hgrows rfl with ⟨hmem, hpml4, hrest, hret⟩
  refine ⟨T', ⟨⟨?_, fun p t ht => ?_⟩, fun w hw => ?_, fun hample _ => ?_⟩⟩
  · simp only [Session.vmm, hmem, hpml4]
    exact htab
  · simp only [Session.vmm, hpml4]
    rcases hown p t ht with hold | hin
    · exact (h.owned p t hold).imp_right (mem_append_left _)
    · refine Or.inr (mem_append_right _ ?_)
      rw [hrest, take_used hused, mem_filter]
      exact ⟨hin, decide_eq_true (htab.frame p t ht).2.1.ne'⟩
  · rw [hmem]
    exact hkeep w hw
  · rcases hall hample.1 hample.2 with ⟨hdone, hleaf⟩
    rw [hmem]
    exact ⟨hret hdone, hleaf⟩

theorem inv_start (h : breaks.start s) : ∃ T, Vmm.Inv s.vmm T := by
  rcases h with ⟨_, v, hv, hm, hp, hf⟩
  rcases tables_reachable hv with ⟨T, hT⟩
  refine ⟨T, ?_, ?_⟩
  · simp only [Session.vmm, hm, hp]
    exact hT.tables
  · simp only [Session.vmm, hp, hf]
    exact hT.owned

/-- The break after a call is the old one or the one asked for. -/
theorem after_brk (s : Session) (c : Call) :
    (s.after c).brk.currentBrk = s.brk.currentBrk ∨ (s.after c).brk.currentBrk = c.addr := by
  simp only [Session.after, sysBrk]
  split_ifs
  · exact Or.inl rfl
  · exact Or.inl rfl
  · exact Or.inr rfl
  · exact Or.inl rfl
  · exact Or.inr rfl

/-- In every run the tables are a tree and the break is an address. -/
theorem inv_reachable (hs : breaks.Reachable s) :
    s.brk.currentBrk ≤ ADDRESS_END ∧ ∃ T, Vmm.Inv s.vmm T := by
  refine Machine.Reachable.invariant (M := breaks)
    (fun s => s.brk.currentBrk ≤ ADDRESS_END ∧ ∃ T, Vmm.Inv s.vmm T)
    (fun s h => ⟨h.1, inv_start h⟩) ?_ hs
  rintro s t c ⟨hbrk, T, h⟩ ⟨haddr, ho⟩ he
  rw [← Option.some.inj he]
  rcases sysBrk_effect h haddr ho with ⟨T', heff⟩
  refine ⟨?_, T', heff.inv⟩
  rcases after_brk s c with hb | hb
  · rw [hb]
    exact hbrk
  · rw [hb]
    exact haddr

/-- Where the entry of an address is the same, so is its translation. -/
theorem getPhysical_leaf {m m' : Mem} (h : Tables base m T) (h' : Tables base m' T') (hv : High v)
    (hleaf : leafOf m' T' v = leafOf m T v) : getPhysical base v m' = getPhysical base v m := by
  rw [getPhysical_eq h' hv, getPhysical_eq h hv, hleaf]

theorem after_pml4 (s : Session) (c : Call) : (s.after c).brk.pml4 = s.brk.pml4 := by
  by_cases h : Grows s c
  · exact (sysBrk_loop h rfl).2.1
  · exact (sysBrk_idle h).2

theorem Effect.tables (h : Effect s c T T') : Tables s.brk.pml4 (s.after c).brk.mem T' := by
  have htab := h.inv.tables
  simp only [Session.vmm, after_pml4] at htab
  exact htab

/-- Pages that the break does not cut are kept. -/
theorem kept_of_whole (hs : breaks.Reachable s) (hc : breaks.allows s c) (hwhole : Whole s c) :
    Kept s c := by
  rcases inv_reachable hs with ⟨hbrk, T, h⟩
  rcases sysBrk_effect h hc.1 hc.2 with ⟨T', heff⟩
  intro _ v hlo hv
  by_cases hlt : c.addr < s.brk.currentBrk
  · rw [(sysBrk_idle (fun hg => absurd hlt (Nat.not_lt.mpr hg.1))).1]
  · exact getPhysical_leaf h.tables heff.tables (high_of_boot hlo (by omega))
      (heff.keeps v (not_touches hc.1 hbrk hlo hv (hwhole.resolve_left hlt)))

/-- What the translation of a page is once its entry holds a frame. -/
theorem getPhysical_mapped {phys : Nat} {m : Mem} (h : Tables base m T) (hv : High v)
    (hleaf : leafOf m T v = mapped phys 3) (hframe : phys % 4096 = 0 ∧ phys + 4096 ≤ 2 ^ 32) :
    getPhysical base v m = phys + v % 4096 := by
  rw [getPhysical_eq h hv, and_offset, hleaf, mapped_eq hframe.1 (by omega), and_present,
    if_neg (by omega), addr_link hframe.1 (by omega) (by decide)]

/-- A page above 4 GB that the break cuts gets another frame. -/
theorem lost_of_cut (hs : breaks.Reachable s) (hc : breaks.allows s c) (hample : Ample s c)
    (hcut : ¬ Whole s c) :
    (sysBrk c.addr c.supply s.brk).2.1 = c.addr ∧
      pageOf s.brk.currentBrk < s.brk.currentBrk ∧ BOOT_END ≤ pageOf s.brk.currentBrk ∧
      getPhysical s.brk.pml4 (pageOf s.brk.currentBrk) (s.after c).brk.mem ∈ c.supply ∧
      getPhysical s.brk.pml4 (pageOf s.brk.currentBrk) (s.after c).brk.mem ≠
        getPhysical s.brk.pml4 (pageOf s.brk.currentBrk) s.brk.mem := by
  rcases inv_reachable hs with ⟨hbrk, T, h⟩
  rcases sysBrk_effect h hc.1 hc.2 with ⟨T', heff⟩
  simp only [Whole, not_or, Nat.not_lt] at hcut
  rcases hcut with ⟨hle, hboot, hcut⟩
  rcases heff.sets hample ⟨hle, Nat.le_trans hboot hle⟩ with ⟨⟨hret, _⟩, hset⟩
  have hpage : pageOf s.brk.currentBrk < s.brk.currentBrk ∧
      BOOT_END ≤ pageOf s.brk.currentBrk := by
    simp only [pageOf, BOOT_END] at hboot ⊢
    omega
  have hhigh : High (pageOf s.brk.currentBrk) := high_of_boot hpage.2 (by omega)
  rcases hset _ (touches_cut hc.1 hle hboot hcut) with ⟨phys, hin, hleaf⟩
  have h0 : phys ≠ 0 := fun he => hample.1 (he ▸ hin)
  have hframe := hc.2.frames.frame phys hin h0
  have hnew : getPhysical s.brk.pml4 (pageOf s.brk.currentBrk) (s.after c).brk.mem = phys := by
    rw [getPhysical_mapped heff.tables hhigh hleaf hframe]
    simp only [pageOf]
    omega
  refine ⟨hret, hpage.1, hpage.2, hnew ▸ hin, fun hsame => ?_⟩
  -- The frame is one of the supply, which nothing mapped before.
  refine hc.2.unmapped phys hin h0 _ hhigh ?_
  rw [← hsame, hnew]
  simp only [pageOf]
  omega

theorem after_frames (hf : f ∈ (s.after c).frames) : f ∈ s.frames ∨ f ∈ c.supply := by
  simp only [Session.after, mem_append] at hf
  exact hf.imp_right (fun h => mem_of_mem_take (mem_filter.mp h).1)

/-- After a call with an ample supply, an address is translated as before or
    to a frame of the supply. -/
theorem translated_after (h : Vmm.Inv s.vmm T) (heff : Effect s c T T') (ho : s.Offers c.supply)
    (hample : Ample s c) (hgrows : Grows s c) (hv : High v) :
    getPhysical s.brk.pml4 v (s.after c).brk.mem = getPhysical s.brk.pml4 v s.brk.mem ∨
      pageOf (getPhysical s.brk.pml4 v (s.after c).brk.mem) ∈ c.supply := by
  by_cases htouch : Touches (pageOf s.brk.currentBrk) (pageCount s.brk.currentBrk c.addr) v
  · rcases (heff.sets hample hgrows).2 v htouch with ⟨phys, hin, hleaf⟩
    have hframe := ho.frames.frame phys hin (fun h0 => hample.1 (h0 ▸ hin))
    have hpage : pageOf (phys + v % 4096) = phys := by
      simp only [pageOf]
      omega
    rw [getPhysical_mapped heff.tables hv hleaf hframe, hpage]
    exact Or.inr hin
  · exact Or.inl (getPhysical_leaf h.tables heff.tables hv (heff.keeps v htouch))

/-- In every state of every run: a call keeps what lies above 4 GB and below
    the old break if it does not grow the break, or the old break is below
    4 GB or a multiple of the page size. With an ample supply it keeps it
    only then. -/
theorem brk_kept_iff {s : Session} (hs : breaks.Reachable s) {c : Call}
    (hc : breaks.allows s c) : (Whole s c → Kept s c) ∧ (Ample s c → (Kept s c ↔ Whole s c)) := by
  refine ⟨kept_of_whole hs hc, fun hample => ⟨fun hkept => ?_, kept_of_whole hs hc⟩⟩
  by_contra hcut
  rcases lost_of_cut hs hc hample hcut with ⟨hret, hlt, hboot, _, hne⟩
  exact hne (hkept hret _ hboot hlt)

/-! ### A page that is cut -/

/-- A program with this break over the tables of the manager. -/
def atBreak (v : Vmm.Session) (b : Nat) : Session where
  brk := { mem := v.mem, pml4 := v.base, currentBrk := b }
  frames := v.frames

/-- Right after boot, with the break at 4 GB. -/
def fresh : Session := atBreak booted BOOT_END

/-- The break grows by half a page, and then by a page. -/
def halfPage : Call where
  addr := 0x100000800
  supply := [0x300000, 0x301000, 0x302000, 0x303000, 0x304000]

def pageMore : Call where
  addr := 0x100001800
  supply := [0x400000, 0x401000, 0x402000, 0x403000, 0x404000, 0x405000, 0x406000, 0x407000,
    0x408000]

theorem atBreak_reachable {v : Vmm.Session} (hv : sessions.start v) (hb : b ≤ ADDRESS_END) :
    breaks.Reachable (atBreak v b) :=
  Machine.Reachable.start _ ⟨hb, v, Machine.Reachable.start v hv, rfl, rfl, rfl⟩

theorem atBreak_inv {v : Vmm.Session} (hv : sessions.start v) (b : Nat) :
    Vmm.Inv (atBreak v b).vmm (bootTree v.base) :=
  ⟨(Vmm.inv_start hv).tables, (Vmm.inv_start hv).owned⟩

/-- Right after boot nothing above 4 GB is mapped. -/
theorem atBreak_unmapped {v : Vmm.Session} (hv : sessions.start v) (b : Nat) (hw : High w) :
    getPhysical (atBreak v b).brk.pml4 w (atBreak v b).brk.mem = 0 := by
  have h := getPhysical_eq (atBreak_inv hv b).tables hw
  rw [leafOf_none (bootTree_ptPath _ w), Nat.zero_and, if_pos rfl] at h
  exact h

theorem fresh_reachable : breaks.Reachable fresh := atBreak_reachable booted_start (by decide)

theorem fresh_inv : Vmm.Inv fresh.vmm (bootTree booted.base) := atBreak_inv booted_start BOOT_END

theorem fresh_unmapped (hv : High v) : getPhysical fresh.brk.pml4 v fresh.brk.mem = 0 :=
  atBreak_unmapped booted_start BOOT_END hv

theorem fresh_allows : breaks.allows fresh halfPage := by
  refine ⟨by decide, ⟨⟨by decide, by decide, by decide, by decide⟩, fun f hf h0 v hv => ?_⟩⟩
  rw [fresh_unmapped hv]
  exact fun he => h0 he.symm

/-- The first call is one that keeps everything. -/
theorem brk_kept_halfPage : breaks.Reachable fresh ∧ breaks.allows fresh halfPage ∧
    Whole fresh halfPage ∧ Kept fresh halfPage :=
  ⟨fresh_reachable, fresh_allows, by decide,
    (brk_kept_iff fresh_reachable fresh_allows).1 (by decide)⟩

theorem halfPage_effect : ∃ T', Effect fresh halfPage (bootTree booted.base) T' :=
  sysBrk_effect fresh_inv fresh_allows.1 fresh_allows.2

theorem halfPage_brk : (fresh.after halfPage).brk.currentBrk = 0x100000800 := by
  rcases halfPage_effect with ⟨_, heff⟩
  exact (heff.sets (by decide) (by decide)).1.2

/-- The break is grown from 4 GB by half a page, and then by a page. Both
    calls succeed; the second one maps the first page to another frame, so
    what the program stored there is gone. -/
theorem brk_loses_page :
    ∃ s c v, breaks.Reachable s ∧ breaks.allows s c ∧
      (sysBrk c.addr c.supply s.brk).2.1 = c.addr ∧ BOOT_END ≤ v ∧ v < s.brk.currentBrk ∧
      getPhysical s.brk.pml4 v s.brk.mem ∈ halfPage.supply ∧
      getPhysical s.brk.pml4 v (s.after c).brk.mem ∈ pageMore.supply ∧ ¬ Kept s c := by
  rcases halfPage_effect with ⟨T', heff⟩
  have hbrk := halfPage_brk
  have hreach : breaks.Reachable (fresh.after halfPage) :=
    Machine.Reachable.step _ _ halfPage fresh_reachable fresh_allows rfl
  have hframes : ∀ f ∈ (fresh.after halfPage).frames, f ∈ halfPage.supply :=
    fun f hf => (after_frames hf).resolve_left not_mem_nil
  have hmapped : ∀ v, High v →
      getPhysical fresh.brk.pml4 v (fresh.after halfPage).brk.mem ≠ 0 →
      pageOf (getPhysical fresh.brk.pml4 v (fresh.after halfPage).brk.mem) ∈ halfPage.supply := by
    intro v hv hne
    rcases translated_after fresh_inv heff fresh_allows.2 (by decide) (by decide) hv with h | h
    · rw [h] at hne
      exact absurd (fresh_unmapped hv) hne
    · exact h
  have hdiff : ∀ f ∈ pageMore.supply, f ∉ halfPage.supply := by decide
  have hbase : (fresh.after halfPage).vmm.base = 0x200000 := after_pml4 _ _
  have hallows : breaks.allows (fresh.after halfPage) pageMore := by
    refine ⟨by decide, ⟨⟨by decide, ?_, fun f hf hin => hdiff f hf (hframes f hin), by decide⟩,
      fun f hf h0 v hv he => ?_⟩⟩
    · rw [hbase]
      decide
    · rw [after_pml4] at he
      refine hdiff f hf (he ▸ hmapped v hv (fun hz => h0 ?_))
      rw [← he, hz]
      rfl
  have hample : Ample (fresh.after halfPage) pageMore := by
    unfold Ample
    decide
  have hcut : ¬ Whole (fresh.after halfPage) pageMore := by
    unfold Whole
    decide
  rcases lost_of_cut hreach hallows hample hcut with ⟨hret, hlt, hboot, hnew, hne⟩
  refine ⟨_, pageMore, _, hreach, hallows, hret, hboot, hlt, ?_, hnew,
    fun hkept => hne (hkept hret _ hboot hlt)⟩
  -- The page was mapped by the first call.
  have hpage : pageOf (fresh.after halfPage).brk.currentBrk = BOOT_END := by
    rfl
  rcases (heff.sets (by decide) (by decide)).2 BOOT_END ⟨0, by decide, by decide, rfl, rfl⟩ with
    ⟨phys, hin, hleaf⟩
  have hframe := fresh_allows.2.frames.frame phys hin (fun h0 => absurd (h0 ▸ hin) (by decide))
  rw [hpage, after_pml4, getPhysical_mapped heff.tables (high_of_boot (by decide) (by decide))
    hleaf hframe]
  exact hin

end SysRust.Brk
