import SysRust.Theory.Vfs.Ops

/-!
# Setting up the Tree

`vfs::init` makes the root, hangs the files of the initial ramdisk below it,
and then builds `/dev` off to the side: the directory and the devices are
allocated first, the devices are added to the directory, and the finished
directory is added to the root. `Stage` is what holds until then.

The children of the root have different names if the ramdisk's files have
different names and none of them is `dev`: the directory of the devices is
added to the root without looking for its name.

## Main definitions

* `Distinct`, `PlainNames`: The conditions on the ramdisk's names.
* `Stage`: The state while `/dev` is built off to the side.

## Theorems

* `initrdInitVfs_spec`, `devfsInit_spec`: The two parts of the set-up.
* `init_spec`: The invariant and the names after `vfs::init`.
-/

namespace SysRust.Vfs

open ChildTree List Option

/-- The ramdisk's names are different as they are stored. -/
def Distinct (names : List CStr) : Prop := (names.map copyName).Nodup

/-- They are different, also from the name of the device directory. -/
def PlainNames (names : List CStr) : Prop := Distinct names ∧ nameDev ∉ names.map copyName

variable {s : Vfs} {supply : List Ptr}

theorem fresh_initrdNode (name : CStr) : Fresh (initrdNode name) :=
  ⟨rfl, fun _ => rfl, absurd (show VFS_FILE &&& VFS_DIRECTORY = 0 by decide)⟩

theorem fresh_deviceNode (name : CStr) : Fresh (deviceNode name) :=
  ⟨rfl, fun _ => rfl, absurd (show (VFS_FILE ||| VFS_DEVICE) &&& VFS_DIRECTORY = 0 by decide)⟩

/-- What is offered stays offered when another address becomes live. -/
theorem offers_leak (ho : Offers s supply) {y : Ptr} (hy : y ∉ supply) (n : VfsNode) :
    Offers (setNode s y n) supply := by
  refine ⟨fun f hf hf0 => ?_, ho.nodup⟩
  have hfy : f ≠ y := fun hfy => hy (hfy ▸ hf)
  rw [nodes_setNode_of_ne hfy]
  exact ho.dead f hf hf0

/-! ### The ramdisk -/

/-- What the files of the ramdisk leave: the names below the root are the old
    ones and theirs. -/
structure Filled (s : Vfs) (names : List CStr) (r : Vfs × List Ptr) : Prop where
  inv : Inv r.1
  root : r.1.root = s.root
  supply : Offers r.1 r.2
  below : ∀ nm ∈ kidNames r.1 s.root,
    nm ∈ kidNames s s.root ∨ nm ∈ (names.map copyName).map some
  unique : Distinct names → (∀ nm ∈ names.map copyName, some nm ∉ kidNames s s.root) →
    UniqueKids s → UniqueKids r.1

/-- One file makes its name appear at most. -/
theorem filled_cons {t : Vfs} {name : CStr} {names : List CStr} {r : Vfs × List Ptr}
    (hroot : t.root = s.root)
    (hnames : ∀ nm ∈ kidNames t s.root, nm ∈ kidNames s s.root ∨ nm = some (copyName name))
    (hunique : some (copyName name) ∉ kidNames s s.root → UniqueKids s → UniqueKids t)
    (h : Filled t names r) : Filled s (name :: names) r := by
  refine ⟨h.inv, h.root.trans hroot, h.supply, fun nm hnm => ?_, fun hdis hnew hu => ?_⟩
  · rcases h.below nm (hroot ▸ hnm) with hold | hrest
    · rcases hnames nm (hroot ▸ hold) with hold | rfl
      · exact Or.inl hold
      · exact Or.inr mem_cons_self
    · exact Or.inr (mem_cons_of_mem _ hrest)
  · have hdis := nodup_cons.mp hdis
    refine h.unique hdis.2 (fun nm hnm hmem => ?_) (hunique (hnew _ mem_cons_self) hu)
    rw [hroot] at hmem
    rcases hnames _ hmem with hold | hself
    · exact hnew nm (mem_cons_of_mem _ hnm) hold
    · rw [some.injEq] at hself
      exact hdis.1 (hself ▸ hnm)

/-- The files of the ramdisk, one after the other; a full root leaks a node. -/
theorem initrdInitVfs_spec (names : List CStr) : ∀ (s : Vfs) (supply : List Ptr), Inv s →
    Offers s supply → ∃ r, initrdInitVfs s.root names supply s = some r ∧ Filled s names r := by
  induction names with
  | nil =>
    exact fun s supply h ho =>
      ⟨_, rfl, h, rfl, ho, fun _ hnm => Or.inl hnm, fun _ _ hu => hu⟩
  | cons name names ih =>
    intro s supply h ho
    have ho' := offers_kmalloc ho
    simp only [initrdInitVfs]
    by_cases hk : (kmalloc supply).1 = 0
    · rw [if_pos hk]
      rcases ih s _ h ho' with ⟨r, hr, hf⟩
      exact ⟨r, hr, filled_cons rfl (fun _ hnm => Or.inl hnm) (fun _ hu => hu) hf⟩
    rcases kmalloc_dead ho hk with ⟨hdead, hnot⟩
    have hn := fresh_initrdNode name
    have hol := offers_leak ho' hnot (initrdNode name)
    have hnames := kidNames_leak h hdead hn
    have hself : nameAt (setNode s (kmalloc supply).1 (initrdNode name)) (kmalloc supply).1 =
        some (copyName name) := by
      rw [nameAt, nodes_setNode_self]
      rfl
    rw [if_neg hk]
    rcases addChild_new h (Below.refl : Reaches s s.root) hk hdead hn with hadd | ⟨t, hadd, hung⟩
    · rw [hadd, bind_some]
      rcases ih _ _ (inv_leak h hdead hn hk).1 hol with ⟨r, hr, hf⟩
      have hleak := shrunk_leak h hdead hn
      refine ⟨r, hr, filled_cons hleak.root (fun nm hnm => ?_) (fun _ hu => hleak.unique hu) hf⟩
      exact Or.inl (hnames s.root ▸ hnm)
    · have hroot : t.root = s.root := hung.root
      rw [hadd, bind_some, ← hroot]
      rcases ih t _ hung.inv ⟨fun f hf hf0 => hung.dead (hol.dead f hf hf0), hol.nodup⟩ with
        ⟨r, hr, hf⟩
      refine ⟨r, hr, filled_cons hroot (fun nm hnm => ?_)
        (fun hnew hu => unique_new h hdead hn hung hu hnew) hf⟩
      rcases hung.names hnm with hold | ⟨_, hnew⟩
      · exact Or.inl (hnames s.root ▸ hold)
      · exact Or.inr (hnew.trans hself)

/-! ### The devices -/

variable {x : Ptr} {L : List (Ptr × CStr)} {U : Prop}

/-- While `/dev` is built: the directory is loose, and so are the devices in
    `L`, whose names are new to it. A null pointer in `L` is an allocation
    that failed. Under the condition `U` the names are different, and `dev` is
    new to the root. -/
structure Stage (U : Prop) (s : Vfs) (x : Ptr) (L : List (Ptr × CStr)) : Prop where
  inv : Inv s
  unique : U → UniqueKids s ∧ some nameDev ∉ kidNames s s.root
  dir : Loose s x
  name : nameAt s x = some nameDev
  pending : ∀ y ∈ L, y.1 ≠ 0 → y.1 ≠ x ∧ Loose s y.1 ∧ nameAt s y.1 = some y.2
  fresh : ∀ y ∈ L, some y.2 ∉ kidNames s x
  distinct : L.Pairwise (fun a b => a.2 ≠ b.2 ∧ (a.1 ≠ 0 → a.1 ≠ b.1))

theorem pairwise_snoc {y : Ptr × CStr}
    (h : L.Pairwise (fun a b => a.2 ≠ b.2 ∧ (a.1 ≠ 0 → a.1 ≠ b.1)))
    (hy : ∀ a ∈ L, a.2 ≠ y.2 ∧ (a.1 ≠ 0 → a.1 ≠ y.1)) :
    (L ++ [y]).Pairwise (fun a b => a.2 ≠ b.2 ∧ (a.1 ≠ 0 → a.1 ≠ b.1)) := by
  refine pairwise_append.mpr ⟨h, pairwise_singleton _ _, fun a ha b hb => ?_⟩
  rw [mem_singleton.mp hb]
  exact hy a ha

/-- A device is made while the directory is still empty. -/
theorem stage_makeDevice (h : Stage U s x L) (ho : Offers s supply) (hx : kids s x = [])
    (name : CStr) (hname : ∀ a ∈ L, a.2 ≠ copyName name) :
    Stage U (makeDevice name supply s).vfs x
        (L ++ [((makeDevice name supply s).ptr, copyName name)]) ∧
      Offers (makeDevice name supply s).vfs (makeDevice name supply s).supply ∧
      (makeDevice name supply s).vfs.root = s.root ∧
      kids (makeDevice name supply s).vfs x = [] := by
  have ho' := offers_kmalloc ho
  have hempty : ∀ nm, nm ∉ kidNames s x := by
    intro nm hnm
    rw [kidNames, hx] at hnm
    exact absurd hnm not_mem_nil
  simp only [makeDevice]
  by_cases hk : (kmalloc supply).1 = 0
  · rw [if_pos hk]
    refine ⟨{ h with pending := ?_, fresh := fun _ _ => hempty _, distinct := ?_ }, ho', rfl, hx⟩
    · intro y hy hy0
      rcases mem_append.mp hy with hy | hy
      · exact h.pending y hy hy0
      · exact absurd (by rw [mem_singleton.mp hy]) hy0
    · exact pairwise_snoc h.distinct (fun a ha => ⟨hname a ha, fun ha0 => ha0⟩)
  · rcases kmalloc_dead ho hk with ⟨hdead, hnot⟩
    rw [if_neg hk]
    have hfresh := fresh_deviceNode name
    have hkids := kids_leak hdead hfresh
    have hnames := kidNames_leak h.inv hdead hfresh
    rcases inv_leak h.inv hdead hfresh hk with ⟨h1, hloose⟩
    -- The nodes that are loose already have other addresses.
    have hold : ∀ z, Loose s z → z ≠ (kmalloc supply).1 ∧
        Loose (setNode s (kmalloc supply).1 (deviceNode name)) z ∧
        nameAt (setNode s (kmalloc supply).1 (deviceNode name)) z = nameAt s z := by
      intro z hz
      rcases hz.live with ⟨m, hm⟩
      have hne : z ≠ (kmalloc supply).1 := ne_of_dead hdead hm
      refine ⟨hne, ⟨hz.root, live_setNode hz.live, fun d => ?_⟩, nameAt_setNode_of_ne s _ hne⟩
      rw [hkids]
      exact hz.unlisted d
    have hxk := hold x h.dir
    refine ⟨⟨h1, fun hU => ⟨?_, ?_⟩, hxk.2.1, hxk.2.2.trans h.name, ?_, ?_, ?_⟩,
      offers_leak ho' hnot _, rfl, ?_⟩
    · exact (shrunk_leak h.inv hdead hfresh).unique (h.unique hU).1
    · rw [hnames]
      exact (h.unique hU).2
    · intro y hy hy0
      rcases mem_append.mp hy with hy | hy
      · rcases h.pending y hy hy0 with ⟨hyx, hyl, hyn⟩
        have hyk := hold y.1 hyl
        exact ⟨hyx, hyk.2.1, hyk.2.2.trans hyn⟩
      · rw [mem_singleton.mp hy]
        refine ⟨hxk.1.symm, hloose, ?_⟩
        rw [nameAt, nodes_setNode_self]
        rfl
    · intro y _
      rw [hnames]
      exact hempty _
    · refine pairwise_snoc h.distinct (fun a ha => ⟨hname a ha, fun ha0 => ?_⟩)
      exact (hold a.1 (h.pending a ha ha0).2.1).1
    · rw [hkids]
      exact hx

/-- The next device is added to the directory. -/
theorem stage_add {y : Ptr} {nm : CStr} (h : Stage U s x ((y, nm) :: L)) :
    ∃ r, addChild x y s = some r ∧ Stage U r.1 x L ∧ r.1.root = s.root := by
  have hdis := pairwise_cons.mp h.distinct
  have hrest : Stage U s x L := { h with
    pending := fun z hz => h.pending z (mem_cons_of_mem _ hz)
    fresh := fun z hz => h.fresh z (mem_cons_of_mem _ hz)
    distinct := hdis.2 }
  by_cases hy0 : y = 0
  · exact ⟨(s, -1), if_pos (Or.inr hy0), hrest, rfl⟩
  rcases h.pending (y, nm) mem_cons_self hy0 with ⟨hyx, hloose, hname⟩
  rcases addChild_loose h.inv (fun _ => h.dir.live) hloose with ⟨hadd, _⟩ | ⟨t, hadd, hung⟩
  · exact ⟨_, hadd, hrest, rfl⟩
  refine ⟨_, hadd, ⟨hung.inv, fun hU => ⟨?_, ?_⟩, hung.loose hyx.symm h.dir, ?_, ?_, ?_, hdis.2⟩,
    hung.root⟩
  · refine hung.unique (h.unique hU).1 ?_
    rw [hname]
    exact h.fresh (y, nm) mem_cons_self
  · intro hmem
    rw [hung.root] at hmem
    rcases hung.names hmem with hold | ⟨hroot, _⟩
    · exact (h.unique hU).2 hold
    · exact h.dir.root hroot.symm
  · rw [hung.name]
    exact h.name
  · intro z hz hz0
    rcases hrest.pending z hz hz0 with ⟨hzx, hzl, hzn⟩
    have hzy : z.1 ≠ y := ((hdis.1 z hz).2 hy0).symm
    exact ⟨hzx, hung.loose hzy hzl, by rw [hung.name]; exact hzn⟩
  · intro z hz hmem
    rcases hung.names hmem with hold | ⟨_, hself⟩
    · exact hrest.fresh z hz hold
    · rw [hname, some.injEq] at hself
      exact (hdis.1 z hz).1 hself.symm

theorem devfsInit_spec (h : Inv s) (ho : Offers s supply) :
    ∃ t, devfsInit s.root supply s = some t ∧ Inv t ∧
      (UniqueKids s ∧ some nameDev ∉ kidNames s s.root → UniqueKids t) := by
  have ho' := offers_kmalloc ho
  simp only [devfsInit]
  by_cases hk : (kmalloc supply).1 = 0
  · rw [if_pos hk]
    exact ⟨s, rfl, h, And.left⟩
  rcases kmalloc_dead ho hk with ⟨hdead, hnot⟩
  rw [if_neg hk]
  have hfresh := fresh_dirNode .devfs nameDev
  rcases inv_leak h hdead hfresh hk with ⟨h1, hloose⟩
  have hkids : kids (setNode s (kmalloc supply).1 (dirNode .devfs nameDev)) (kmalloc supply).1 =
      [] := by
    rw [kids_setNode_self, fresh_slots hfresh]
  have h0 : Stage (UniqueKids s ∧ some nameDev ∉ kidNames s s.root)
      (setNode s (kmalloc supply).1 (dirNode .devfs nameDev)) (kmalloc supply).1 [] := by
    refine ⟨h1, fun hU => ⟨(shrunk_leak h hdead hfresh).unique hU.1, ?_⟩, hloose, ?_,
      forall_mem_nil _, forall_mem_nil _, List.Pairwise.nil⟩
    · rw [kidNames_leak h hdead hfresh]
      exact hU.2
    · rw [nameAt, nodes_setNode_self]
      rfl
  -- Three devices are made, then added.
  have hzero : copyName nameNull ≠ copyName nameZero := by decide
  have hcon : copyName nameNull ≠ copyName nameConsole ∧ copyName nameZero ≠ copyName nameConsole :=
    by decide
  rcases stage_makeDevice h0 (offers_leak ho' hnot _) hkids nameNull
    (forall_mem_nil _) with ⟨h1, ho1, hr1, hk1⟩
  rcases stage_makeDevice h1 ho1 hk1 nameZero (fun a ha => by
    rw [mem_singleton.mp ha]
    exact hzero) with ⟨h2, ho2, hr2, hk2⟩
  rcases stage_makeDevice h2 ho2 hk2 nameConsole (fun a ha => by
    rcases mem_cons.mp ha with ha | ha
    · rw [ha]
      exact hcon.1
    · rw [mem_singleton.mp ha]
      exact hcon.2) with ⟨h3, _, hr3, _⟩
  have hroot3 := hr3.trans (hr2.trans hr1)
  rcases stage_add h3 with ⟨r4, he4, h4, hr4⟩
  rw [he4, bind_some]
  rcases stage_add h4 with ⟨r5, he5, h5, hr5⟩
  rw [he5, bind_some]
  rcases stage_add h5 with ⟨r6, he6, h6, hr6⟩
  rw [he6, bind_some]
  have hroot6 : r6.1.root = s.root := hr6.trans (hr5.trans (hr4.trans hroot3))
  rw [← hroot6]
  -- Last, the finished directory is added to the root.
  rcases addChild_loose h6.inv (live_of_reaches h6.inv Below.refl) h6.dir with
    ⟨hadd, _⟩ | ⟨t, hadd, hung⟩
  · rw [hadd]
    exact ⟨_, rfl, h6.inv, fun hU => (h6.unique (hroot6 ▸ hU)).1⟩
  · rw [hadd]
    refine ⟨_, rfl, hung.inv, fun hU => ?_⟩
    rw [hroot6] at hU
    refine hung.unique (h6.unique hU).1 ?_
    rw [h6.name]
    exact (h6.unique hU).2

/-! ### All of it -/

/-- Without a root `vfs::init` is done. Otherwise it goes on with a store that
    holds the root alone. -/
theorem init_cases (names : List CStr)
    (ho : Offers { root := 0, nodes := fun _ => none } supply) :
    init names supply = some { root := 0, nodes := fun _ => none } ∨
    ∃ s rest, s.root ≠ 0 ∧ s.nodes s.root = some (dirNode .default [SLASH]) ∧
      (∀ q, q ≠ s.root → s.nodes q = none) ∧ Offers s rest ∧
      init names supply =
        (initrdInitVfs s.root names rest s).bind (fun r => devfsInit s.root r.2 r.1) := by
  have hm := makeDir_eq [SLASH] supply { root := 0, nodes := fun _ => none }
  unfold init
  by_cases hk : (kmalloc supply).1 = 0
  · rw [if_pos hk] at hm
    exact Or.inl (by simp only [hm, if_true])
  · rcases kmalloc_dead ho hk with ⟨_, hnot⟩
    generalize hs : ({ setNode { root := 0, nodes := fun _ => none } (kmalloc supply).1
      (dirNode .default [SLASH]) with root := (kmalloc supply).1 } : Vfs) = s
    have hroot : s.root = (kmalloc supply).1 := by rw [← hs]
    have hother : ∀ q, q ≠ s.root → s.nodes q = none := by
      intro q hq
      rw [hroot] at hq
      rw [← hs]
      exact nodes_setNode_of_ne hq
    refine Or.inr ⟨s, (kmalloc supply).2, hroot ▸ hk, ?_, hother,
      ⟨fun f hf _ => ?_, (offers_kmalloc ho).nodup⟩, ?_⟩
    · rw [hroot, ← hs]
      exact nodes_setNode_self _ _ _
    · exact hother f (fun hfk => hnot (hroot ▸ hfk ▸ hf))
    · simp only [hm, if_neg hk, hs, hroot]

/-- `vfs::init` comes back with the invariant, whatever the ramdisk holds and
    whichever allocations fail. Plain names stay different. -/
theorem init_spec (names : List CStr) (ho : Offers { root := 0, nodes := fun _ => none } supply) :
    ∃ s, init names supply = some s ∧ Inv s ∧ (PlainNames names → UniqueKids s) := by
  rcases init_cases names ho with heq | ⟨s, rest, h0, hself, hother, hrest, heq⟩
  · have hnil : ∀ d, kids { root := 0, nodes := fun _ => none } d = [] := fun d => kids_none rfl
    refine ⟨_, heq, ⟨rfl, Or.inl rfl, fun p n hp => absurd hp (some_ne_none n).symm,
      fun d c hc => ?_, fun d => ?_⟩, fun _ d => ?_⟩
    · rw [hnil] at hc
      exact absurd hc not_mem_nil
    · rw [hnil]
      exact nodup_nil
    · rw [kidNames, hnil]
      exact nodup_nil
  have hfresh := fresh_dirNode .default [SLASH]
  have hnil : ∀ d, kids s d = [] := by
    intro d
    by_cases hd : d = s.root
    · rw [hd, kids_some hself, fresh_slots hfresh]
    · exact kids_none (hother d hd)
  have hnames : ∀ d, kidNames s d = [] := fun d => by rw [kidNames, hnil, map_nil]
  have hinv : Inv s := by
    refine ⟨hother 0 (Ne.symm h0), Or.inr ?_, fun p n hp => ?_, fun d c hc => ?_, fun d => ?_⟩
    · rw [parentOf, hself]
      rfl
    · by_cases hpk : p = s.root
      · rw [hpk, hself, some.injEq] at hp
        exact hp ▸ fresh_nodeOk hfresh
      · rw [hother p hpk] at hp
        exact absurd hp (some_ne_none n).symm
    · rw [hnil] at hc
      exact absurd hc not_mem_nil
    · rw [hnil]
      exact nodup_nil
  rcases initrdInitVfs_spec names s _ hinv hrest with ⟨r, hr, hf⟩
  rcases devfsInit_spec hf.inv hf.supply with ⟨t, ht, htinv, htu⟩
  rw [hf.root] at ht htu
  refine ⟨t, by rw [heq, hr, bind_some]; exact ht, htinv, fun hplain => htu ⟨?_, fun hmem => ?_⟩⟩
  · refine hf.unique hplain.1 (fun nm _ => ?_) (fun d => ?_)
    · rw [hnames]
      exact not_mem_nil
    · rw [hnames]
      exact nodup_nil
  · rcases hf.below _ hmem with hold | hfile
    · rw [hnames] at hold
      exact absurd hold not_mem_nil
    · rcases mem_map.mp hfile with ⟨nm, hnm, heq⟩
      rw [some.injEq] at heq
      exact hplain.2 (heq ▸ hnm)

end SysRust.Vfs
