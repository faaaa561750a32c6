import SysRust.Theory.Vfs.Edits

/-!
# The File System's Operations

What each function of the file system does to the nodes. Lookups end at a
reachable node or at null. Creating functions add at most one leaf and lose
nothing. Unlinking loses one subtree, and moving a node loses nothing unless
its new place is below it. Names stay different where a new name is not there
yet.

Every specification also says that the function comes back: no node that is
read has been freed.

## Main definitions

* `Place`: A pointer that is null or can be reached.
* `Offers`: What the allocator may return next.
* `Grew`: What a creating function is to do.
* `Attempt`: What a creating function does.
* `Storable`, `Free`: The conditions on the name of a new or a moved node.

## Theorems

* `finddir_spec`, `resolvePath_spec`, `splitPath_spec`: Lookups.
* `mkdir_attempt`, `createFileIn_attempt`, `createDirIn_attempt`: What a
  creating function comes down to.
* `mkdir_spec`, `createFileIn_spec`, `createDirIn_spec`, `mkdirP_spec`:
  Creation.
* `unlink_cases`, `moveNode_spec`: Removal and moving.
-/

namespace SysRust.Vfs

open ChildTree List Option

/-- A pointer that is null or can be reached. -/
def Place (s : Vfs) (p : Ptr) : Prop := p = 0 ∨ Reaches s p

/-! ### Lookups -/

variable {dir f parent x : Ptr} {d n : VfsNode} {rest : List Ptr}

section Lookup

variable {s : Vfs}

/-- The loop over live children returns the first one of the name. -/
theorem findLoop_eq (hlive : ∀ c ∈ kids s dir, Live s c) (hd : s.nodes dir = some d)
    (name : CStr) (k i : Nat) (hk : i + k ≤ d.numChildren) :
    findLoop s d name k i = some
      ((((List.range' i k).map d.children).find? (fun c => nameAt s c = some name)).getD 0) := by
  induction k generalizing i with
  | zero => rfl
  | succ k ih =>
    rcases hlive _ (mem_kids_slot hd (show i < d.numChildren by omega) rfl) with ⟨c, hc⟩
    have hname : nameAt s (d.children i) = some c.name := by rw [nameAt, hc, map_some]
    rw [findLoop, hc, bind_some, ih (i + 1) (by omega), List.range'_succ, map_cons,
      List.find?_cons]
    by_cases h : c.name = name
    · simp only [hname, h, if_true, decide_true, getD_some]
    · simp only [hname, some.injEq, h, if_false, decide_false]

/-- A lookup finds the first child of the name, unless the node is one that
    nothing is looked up in. -/
theorem finddir_cases (h : Inv s) (dir : Ptr) (name : CStr) :
    finddir s dir name =
        some (((kids s dir).find? (fun c => nameAt s c = some name)).getD 0) ∨
      (finddir s dir name = some 0 ∧ ∀ d, dir ≠ 0 → s.nodes dir = some d →
        d.flags &&& VFS_DIRECTORY ≠ 0 → d.finddirFn = none) ∨
      (finddir s dir name = none ∧ dir ≠ 0 ∧ s.nodes dir = none) := by
  unfold finddir
  by_cases h0 : dir = 0
  · exact Or.inr (Or.inl ⟨if_pos h0, fun _ hne => absurd h0 hne⟩)
  rw [if_neg h0]
  cases hd : s.nodes dir with
  | none => exact Or.inr (Or.inr ⟨rfl, h0, rfl⟩)
  | some d =>
    rw [bind_some]
    cases hfn : d.finddirFn with
    | none => exact Or.inr (Or.inl ⟨rfl, fun e _ he _ => some.inj he ▸ hfn⟩)
    | some f =>
      simp only [finddirWith]
      by_cases hflag : f ≠ .devfs ∧ d.flags &&& VFS_DIRECTORY = 0
      · exact Or.inr (Or.inl ⟨if_pos hflag,
          fun e _ he hdir => absurd hflag.2 (some.inj he ▸ hdir)⟩)
      · have hloop := findLoop_eq (fun _ hc => live_of_kid h hc) hd name d.numChildren 0 (by omega)
        rw [if_neg hflag, hloop, kids_some hd, VfsNode.slots, range_eq_range']
        exact Or.inl rfl

theorem finddir_spec (h : Inv s) (hdir : Place s dir) (name : CStr) :
    ∃ c, finddir s dir name = some c ∧ Place s c := by
  rcases finddir_cases h dir name with hf | ⟨hf, _⟩ | ⟨_, h0, hnone⟩
  · refine ⟨_, hf, ?_⟩
    cases hfind : (kids s dir).find? (fun c => nameAt s c = some name) with
    | none => exact Or.inl rfl
    | some c =>
      have hc := mem_of_find?_eq_some hfind
      rcases hdir with rfl | hr
      · rw [kids_none h.null] at hc
        exact absurd hc not_mem_nil
      · exact Or.inr (Below.step dir c hr hc)
  · exact ⟨0, hf, Or.inl rfl⟩
  · rcases live_of_reaches h (hdir.resolve_left h0) h0 with ⟨d, hd⟩
    exact absurd rfl (ne_of_dead hnone hd)

/-- A lookup in a directory that finds nothing has seen all names. -/
theorem finddir_zero (h : Inv s) (hd : s.nodes dir = some d)
    (hdir : d.flags &&& VFS_DIRECTORY ≠ 0) {name : CStr} (hf : finddir s dir name = some 0) :
    some name ∉ kidNames s dir := by
  intro hmem
  rcases mem_map.mp hmem with ⟨e, he, hname⟩
  rcases finddir_cases h dir name with hg | ⟨_, hno⟩ | ⟨hg, _⟩
  · rw [hf, some.injEq] at hg
    cases hfind : (kids s dir).find? (fun c => nameAt s c = some name) with
    | none => exact List.find?_eq_none.mp hfind e he (decide_eq_true hname)
    | some c =>
      rw [hfind] at hg
      exact kid_ne_zero h (mem_of_find?_eq_some hfind) hg.symm
  · exact (h.nodes dir d hd).finds hdir (hno d (ne_of_dead h.null hd) hd hdir)
  · rw [hg] at hf
    cases hf

theorem resolveFrom_spec (h : Inv s) {cur : Ptr} (p : CStr) (hcur : Place s cur) :
    ∃ c, resolveFrom s cur p = some c ∧ Place s c := by
  fun_induction resolveFrom s cur p with
  | case1 => exact ⟨_, rfl, hcur⟩
  | case2 cur p _ ih =>
    rcases finddir_spec h hcur (component p) with ⟨c, hc, hplace⟩
    rw [hc, bind_some]
    exact ih c hplace

theorem place_root (s : Vfs) : Place s s.root := Or.inr Below.refl

theorem resolvePath_spec (h : Inv s) (path : Option CStr) :
    ∃ c, resolvePath s path = some c ∧ Place s c := by
  cases path with
  | none => exact ⟨0, rfl, Or.inl rfl⟩
  | some p => exact resolveFrom_spec h _ (place_root s)

/-- A path is split into a directory that exists and a name, or refused. -/
theorem splitPath_spec (h : Inv s) (tooLong notFound : Int) (path : CStr) :
    ∃ r, splitPath tooLong notFound s path = some r ∧
      ∀ d name, r = .ok (d, name) → Place s d := by
  have hroot : ∀ {a : CStr} d name, (Except.ok (s.root, a) : Except Int (Ptr × CStr)) =
      .ok (d, name) → Place s d := by
    intro a d name he
    simp only [Except.ok.injEq, Prod.mk.injEq] at he
    exact he.1 ▸ place_root s
  unfold splitPath
  cases lastSlash path with
  | none => exact ⟨_, rfl, hroot⟩
  | some k =>
    cases k with
    | zero => exact ⟨_, rfl, hroot⟩
    | succ k =>
      by_cases hlong : k + 1 ≥ 255
      · simp only [if_pos hlong]
        exact ⟨_, rfl, fun d name he => by simp only [reduceCtorEq] at he⟩
      · simp only [if_neg hlong]
        rcases resolvePath_spec h (some (path.take (k + 1))) with ⟨c, hc, hplace⟩
        rw [hc, map_some]
        refine ⟨_, rfl, fun d name he => ?_⟩
        by_cases h0 : c = 0
        · rw [if_pos h0] at he
          simp only [reduceCtorEq] at he
        · rw [if_neg h0] at he
          simp only [Except.ok.injEq, Prod.mk.injEq] at he
          exact he.1 ▸ hplace

/-- A path is refused with one of the two codes. -/
theorem splitPath_error {tooLong notFound e : Int} (htoo : tooLong ≠ 0) (hnot : notFound ≠ 0)
    {path : CStr} (h : splitPath tooLong notFound s path = some (.error e)) : e ≠ 0 := by
  unfold splitPath at h
  generalize lastSlash path = last at h
  rcases last with _ | _ | k
  · simp only [some.injEq, reduceCtorEq] at h
  · simp only [some.injEq, reduceCtorEq] at h
  · by_cases hlong : k + 1 ≥ 255
    · simp only [if_pos hlong, some.injEq, Except.error.injEq] at h
      exact h ▸ htoo
    · simp only [if_neg hlong] at h
      rcases map_eq_some_iff.mp h with ⟨parent, _, hr⟩
      by_cases h0 : parent = 0
      · rw [if_pos h0, Except.error.injEq] at hr
        exact hr ▸ hnot
      · simp only [if_neg h0, reduceCtorEq] at hr

end Lookup

/-! ### Creation -/

/-- The pointers `kmalloc` may return next: each once, and none of them a
    live node. -/
structure Offers (s : Vfs) (supply : List Ptr) : Prop where
  dead : ∀ f ∈ supply, f ≠ 0 → s.nodes f = none
  nodup : (supply.filter (fun f => f ≠ 0)).Nodup

/-- What a creating function is to do: keep the invariant, everything that
    could be reached and every node, and return null or a node that can be
    reached. Under the condition `ok` the names stay different. -/
structure Grew (s : Vfs) (ok : Prop) (m : Made) : Prop where
  inv : Inv m.vfs
  keeps : ∀ p, Reaches s p → Reaches m.vfs p
  live : ∀ p, Live s p → Live m.vfs p
  unique : ok → UniqueKids s → UniqueKids m.vfs
  ptr : Place m.vfs m.ptr
  supply : Offers m.vfs m.supply

section Create

variable {s : Vfs} {supply : List Ptr} {ok : Prop}

theorem grew_same (h : Inv s) (ho : Offers s supply) {p : Ptr} (hp : Place s p) :
    Grew s ok { vfs := s, ptr := p, supply := supply } :=
  ⟨h, fun _ hr => hr, fun _ hl => hl, fun _ hu => hu, hp, ho⟩

theorem offers_tail (ho : Offers s (f :: rest)) : Offers s rest := by
  refine ⟨fun g hg => ho.dead g (mem_cons_of_mem _ hg), ?_⟩
  have hnd := ho.nodup
  by_cases h0 : f = 0
  · rw [filter_cons_of_neg (by simp only [h0, ne_eq, not_true_eq_false, decide_false,
      Bool.false_eq_true, not_false_eq_true])] at hnd
    exact hnd
  · rw [filter_cons_of_pos (by simp only [ne_eq, h0, not_false_eq_true, decide_true])] at hnd
    exact (nodup_cons.mp hnd).2

/-- A pointer that was handed out is not offered again. -/
theorem offers_not_mem (ho : Offers s (f :: rest)) (h0 : f ≠ 0) : f ∉ rest := by
  have hnd := ho.nodup
  rw [filter_cons_of_pos (by simp only [ne_eq, h0, not_false_eq_true, decide_true])] at hnd
  exact fun hf => (nodup_cons.mp hnd).1 (mem_filter.mpr ⟨hf, decide_eq_true h0⟩)

theorem offers_kmalloc (ho : Offers s supply) : Offers s (kmalloc supply).2 := by
  cases supply with
  | nil => exact ho
  | cons f rest => exact offers_tail ho

/-- A successful allocation: the pointer is dead and not offered again. -/
theorem kmalloc_dead (ho : Offers s supply) (h0 : (kmalloc supply).1 ≠ 0) :
    s.nodes (kmalloc supply).1 = none ∧ (kmalloc supply).1 ∉ (kmalloc supply).2 := by
  cases supply with
  | nil => exact absurd rfl h0
  | cons f rest => exact ⟨ho.dead f mem_cons_self h0, offers_not_mem ho h0⟩

/-- Adding a new node to a directory: the directory took nothing, or lists
    it. -/
theorem addChild_new (h : Inv s) (hpar : Reaches s parent) (hx0 : x ≠ 0) (hx : s.nodes x = none)
    (hn : Fresh n) :
    addChild parent x (setNode s x n) = some (setNode s x n, -1) ∨
      ∃ t, addChild parent x (setNode s x n) = some (t, 0) ∧ Hung (setNode s x n) parent x t := by
  rcases inv_leak h hx hn hx0 with ⟨hinv, hloose⟩
  have hlive := live_of_reaches hinv ((reaches_leak hx hn parent).mpr hpar)
  exact (addChild_loose hinv hlive hloose).imp_left And.left

/-- The names after a new node has been added. -/
theorem unique_new (h : Inv s) (hx : s.nodes x = none) (hn : Fresh n) {t : Vfs}
    (hung : Hung (setNode s x n) parent x t) (hu : UniqueKids s)
    (hnew : some n.name ∉ kidNames s parent) : UniqueKids t := by
  refine hung.unique ((shrunk_leak h hx hn).unique hu) ?_
  rw [kidNames_leak h hx hn, nameAt, nodes_setNode_self]
  exact hnew

/-- Hanging a new node into a directory. -/
theorem hang_spec (h : Inv s) (hpar : Reaches s parent) (hx0 : x ≠ 0) (hx : s.nodes x = none)
    (hn : Fresh n) (hnew : ok → ∀ p, s.nodes parent = some p → p.flags &&& VFS_DIRECTORY ≠ 0 →
      some n.name ∉ kidNames s parent) (ho : Offers s supply) (hnot : x ∉ supply) :
    ∃ m, hang parent { vfs := setNode s x n, ptr := x, supply := supply } = some m ∧
      Grew s ok m := by
  unfold hang
  rcases addChild_new h hpar hx0 hx hn with hadd | ⟨t, hadd, hung⟩
  · -- No room: the node is freed and the state is the old one.
    refine ⟨_, by rw [hadd]; rfl, ?_⟩
    simp only [show (-1 : Int) < 0 by decide, if_true, freeNode_setNode n hx]
    exact grew_same h ho (Or.inl rfl)
  · have hkeeps : ∀ p, Reaches s p → Reaches t p :=
      fun p hp => hung.keeps ((reaches_leak hx hn p).mpr hp)
    refine ⟨_, by rw [hadd]; rfl, hung.inv, hkeeps, fun p hp => ?_, fun hok hu => ?_, ?_, ?_⟩
    · exact hung.live.mpr (live_setNode hp)
    · rcases hung.room with ⟨p, hp, hroom⟩
      have hpx : parent ≠ x := by
        rintro rfl
        exact not_own_kid hung.inv (hkeeps _ hpar) hung.listed
      rw [nodes_setNode_of_ne hpx] at hp
      exact unique_new h hx hn hung hu (hnew hok p hp hroom.1)
    · exact Or.inr (Below.step parent x (hkeeps parent hpar) hung.listed)
    · refine ⟨fun f hf hf0 => hung.dead ?_, ho.nodup⟩
      have hfx : f ≠ x := fun hfx => hnot (hfx ▸ hf)
      rw [nodes_setNode_of_ne hfx]
      exact ho.dead f hf hf0

theorem fresh_dirNode (f : FinddirFn) (name : CStr) : Fresh (dirNode f name) :=
  ⟨rfl, fun _ => rfl, fun _ => some_ne_none _⟩

theorem fresh_fileNode (name : CStr) : Fresh (fileNode name) :=
  ⟨rfl, fun _ => rfl, absurd (show VFS_FILE &&& VFS_DIRECTORY = 0 by decide)⟩

theorem makeDir_eq (name : CStr) (supply : List Ptr) (s : Vfs) :
    makeDir name supply s =
      if (kmalloc supply).1 = 0 then { vfs := s, ptr := 0, supply := (kmalloc supply).2 }
      else { vfs := setNode s (kmalloc supply).1 (dirNode .default name)
             ptr := (kmalloc supply).1
             supply := (kmalloc supply).2 } := rfl

/-- What a creating function comes down to: nothing happens, or a lookup finds
    nothing and a new node is hung into the directory. -/
inductive Attempt (s : Vfs) (parent : Ptr) (name : CStr) (n : VfsNode) : Option Made → Prop
  | same (p : Ptr) (rest : List Ptr) : Place s p → Offers s rest →
      Attempt s parent name n (some { vfs := s, ptr := p, supply := rest })
  | hung (x : Ptr) (rest : List Ptr) : parent ≠ 0 → finddir s parent name = some 0 → x ≠ 0 →
      s.nodes x = none → x ∉ rest → Offers s rest →
      Attempt s parent name n (hang parent { vfs := setNode s x n, ptr := x, supply := rest })

/-- The name is taken: a directory is returned, anything else is refused. -/
theorem existing_attempt (h : Inv s) (ho : Offers s supply) {c : Ptr} (hplace : Place s c)
    (hc0 : c ≠ 0) (parent : Ptr) (name : CStr) (n : VfsNode) :
    Attempt s parent name n ((s.nodes c).map (fun e =>
      { vfs := s
        ptr := if e.flags &&& VFS_DIRECTORY ≠ 0 then c else 0
        supply := supply })) := by
  rcases live_of_reaches h (hplace.resolve_left hc0) hc0 with ⟨e, he⟩
  rw [he, map_some]
  refine Attempt.same _ _ ?_ ho
  by_cases hflag : e.flags &&& VFS_DIRECTORY ≠ 0
  · rw [if_pos hflag]
    exact hplace
  · rw [if_neg hflag]
    exact Or.inl rfl

theorem mkdir_attempt (h : Inv s) (ho : Offers s supply) (hpar : Place s parent)
    (name : CStr) :
    Attempt s parent name (dirNode .default name) (mkdir parent (some name) supply s) := by
  unfold mkdir
  by_cases h0 : parent = 0
  · simp only [if_pos h0]
    exact Attempt.same 0 supply (Or.inl rfl) ho
  rcases live_of_reaches h (hpar.resolve_left h0) h0 with ⟨p, hp⟩
  simp only [if_neg h0, hp, bind_some]
  by_cases hdir : p.flags &&& VFS_DIRECTORY = 0
  · rw [if_pos hdir]
    exact Attempt.same 0 supply (Or.inl rfl) ho
  rcases finddir_spec h hpar name with ⟨c, hc, hplace⟩
  rw [if_neg hdir, hc, bind_some]
  by_cases hc0 : c = 0
  · rw [if_neg (not_not_intro hc0), makeDir_eq]
    by_cases hk : (kmalloc supply).1 = 0
    · rw [if_pos hk, if_pos rfl]
      exact Attempt.same 0 _ (Or.inl rfl) (offers_kmalloc ho)
    · rcases kmalloc_dead ho hk with ⟨hdead, hnot⟩
      rw [if_neg hk, if_neg hk]
      exact Attempt.hung _ _ h0 (hc0 ▸ hc) hk hdead hnot (offers_kmalloc ho)
  · rw [if_pos hc0]
    exact existing_attempt h ho hplace hc0 _ _ _

theorem createDirIn_attempt (h : Inv s) (ho : Offers s supply) (hpar : Place s parent)
    (name : CStr) :
    Attempt s parent name (dirNode .ramfs name) (createDirIn parent (some name) supply s) := by
  unfold createDirIn
  by_cases h0 : parent = 0
  · simp only [if_pos h0]
    exact Attempt.same 0 supply (Or.inl rfl) ho
  rcases finddir_spec h hpar name with ⟨c, hc, hplace⟩
  simp only [if_neg h0, hc, bind_some]
  by_cases hc0 : c = 0
  · rw [if_neg (not_not_intro hc0)]
    by_cases hk : (kmalloc supply).1 = 0
    · rw [if_pos hk]
      exact Attempt.same 0 _ (Or.inl rfl) (offers_kmalloc ho)
    · rcases kmalloc_dead ho hk with ⟨hdead, hnot⟩
      rw [if_neg hk]
      exact Attempt.hung _ _ h0 (hc0 ▸ hc) hk hdead hnot (offers_kmalloc ho)
  · rw [if_pos hc0]
    exact existing_attempt h ho hplace hc0 _ _ _

theorem mem_kmalloc {supply : List Ptr} (h : f ∈ (kmalloc supply).2) : f ∈ supply := by
  cases supply with
  | nil => exact h
  | cons g rest => exact mem_cons_of_mem _ h

theorem createFileIn_attempt (h : Inv s) (ho : Offers s supply) (hpar : Place s parent)
    (name : CStr) :
    Attempt s parent name (fileNode name) (createFileIn parent (some name) supply s) := by
  unfold createFileIn
  by_cases h0 : parent = 0
  · simp only [if_pos h0]
    exact Attempt.same 0 supply (Or.inl rfl) ho
  rcases finddir_spec h hpar name with ⟨c, hc, hplace⟩
  simp only [if_neg h0, hc, bind_some]
  by_cases hc0 : c = 0
  swap
  · rw [if_pos hc0]
    exact Attempt.same c supply hplace ho
  rw [if_neg (not_not_intro hc0)]
  -- Three allocations; before the last one succeeds nothing has changed.
  have ho1 := offers_kmalloc ho
  have ho2 := offers_kmalloc ho1
  have ho3 := offers_kmalloc ho2
  by_cases hk1 : (kmalloc supply).1 = 0
  · rw [if_pos hk1]
    exact Attempt.same 0 _ (Or.inl rfl) ho1
  rcases kmalloc_dead ho hk1 with ⟨hdead, hnot⟩
  rw [if_neg hk1]
  by_cases hk2 : (kmalloc (kmalloc supply).2).1 = 0
  · rw [if_pos hk2]
    exact Attempt.same 0 _ (Or.inl rfl) ho2
  rw [if_neg hk2]
  by_cases hk3 : (kmalloc (kmalloc (kmalloc supply).2).2).1 = 0
  · rw [if_pos hk3]
    exact Attempt.same 0 _ (Or.inl rfl) ho3
  · rw [if_neg hk3]
    exact Attempt.hung _ _ h0 (hc0 ▸ hc) hk1 hdead
      (fun hf => hnot (mem_kmalloc (mem_kmalloc hf))) ho3

/-- If the name is in the directory already, it is stored with all its
    bytes. -/
def Storable (s : Vfs) (parent : Ptr) (name : CStr) : Prop :=
  some (copyName name) ∈ kidNames s parent → name.length ≤ 63

/-- An attempt keeps the tree, and the names different if the name is stored
    as it is looked up. -/
theorem attempt_spec (h : Inv s) (hpar : Place s parent) {name : CStr} (hn : Fresh n)
    (hnn : n.name = copyName name) {r : Option Made} (ha : Attempt s parent name n r) :
    ∃ m, r = some m ∧ Grew s (Storable s parent name) m := by
  cases ha with
  | same p rest hp ho => exact ⟨_, rfl, grew_same h ho hp⟩
  | hung x rest h0 hfind hx0 hx hnot ho =>
    refine hang_spec h (hpar.resolve_left h0) hx0 hx hn (fun hok p hp hdir hmem => ?_) ho hnot
    rw [hnn] at hmem
    have hsame : copyName name = name := take_of_length_le (hok hmem)
    rw [hsame] at hmem
    exact finddir_zero h hp hdir hfind hmem

/-- The condition on the name of a new node, which may be missing. -/
def StorableName (s : Vfs) (parent : Ptr) (name : Option CStr) : Prop :=
  ∀ nm, name = some nm → Storable s parent nm

/-- Without a name nothing is made; with one, a creating function attempts
    to. -/
theorem create_spec (h : Inv s) (ho : Offers s supply) (hpar : Place s parent)
    (make : Option CStr → Option Made) {node : CStr → VfsNode}
    (hnone : make none = some { vfs := s, ptr := 0, supply := supply })
    (hfresh : ∀ nm, Fresh (node nm)) (hname : ∀ nm, (node nm).name = copyName nm)
    (hsome : ∀ nm, Attempt s parent nm (node nm) (make (some nm))) (name : Option CStr) :
    ∃ m, make name = some m ∧ Grew s (StorableName s parent name) m := by
  cases name with
  | none => exact ⟨_, hnone, grew_same h ho (Or.inl rfl)⟩
  | some nm =>
    rcases attempt_spec h hpar (hfresh nm) (hname nm) (hsome nm) with ⟨m, hm, hg⟩
    exact ⟨m, hm, { hg with unique := fun hok => hg.unique (hok nm rfl) }⟩

theorem mkdir_spec (h : Inv s) (ho : Offers s supply) (hpar : Place s parent) (name : Option CStr) :
    ∃ m, mkdir parent name supply s = some m ∧ Grew s (StorableName s parent name) m :=
  create_spec h ho hpar (fun name => mkdir parent name supply s) rfl
    (fresh_dirNode _) (fun _ => rfl) (mkdir_attempt h ho hpar) name

theorem createDirIn_spec (h : Inv s) (ho : Offers s supply) (hpar : Place s parent)
    (name : Option CStr) :
    ∃ m, createDirIn parent name supply s = some m ∧ Grew s (StorableName s parent name) m :=
  create_spec h ho hpar (fun name => createDirIn parent name supply s) rfl
    (fresh_dirNode _) (fun _ => rfl) (createDirIn_attempt h ho hpar) name

theorem createFileIn_spec (h : Inv s) (ho : Offers s supply) (hpar : Place s parent)
    (name : Option CStr) :
    ∃ m, createFileIn parent name supply s = some m ∧ Grew s (StorableName s parent name) m :=
  create_spec h ho hpar (fun name => createFileIn parent name supply s) rfl
    fresh_fileNode (fun _ => rfl) (createFileIn_attempt h ho hpar) name

/-- The loop of `mkdir_p` keeps what its lookups and `mkdir` keep. -/
theorem mkdirFrom_rule {I : Made → Prop}
    (hfind : ∀ m p, I m → ∃ c, finddir m.vfs m.ptr (component p) = some c ∧
      (c ≠ 0 → I { m with ptr := c }))
    (hmake : ∀ m p, I m → ∃ m', mkdir m.ptr (some (component p)) m.supply m.vfs = some m' ∧ I m')
    {cur : Ptr} (p : CStr) {supply : List Ptr} {s : Vfs} (hm : I ⟨s, cur, supply⟩) :
    ∃ m', mkdirFrom cur p supply s = some m' ∧ I m' := by
  fun_induction mkdirFrom cur p supply s with
  | case1 => exact ⟨_, rfl, hm⟩
  | case2 cur p supply s _ ihmade ihfound =>
    rcases hfind _ p hm with ⟨c, hc, hkeep⟩
    rw [hc, bind_some]
    by_cases hc0 : c = 0
    · rcases hmake _ p hm with ⟨m', hm', hi⟩
      rw [if_pos hc0, hm', bind_some]
      exact ihmade m' hi
    · rw [if_neg hc0]
      exact ihfound c (hkeep hc0)

/-- Two steps of growth are one. -/
theorem grew_trans {m m' : Made} (h1 : Grew s ok m) (h2 : Grew m.vfs ok m') : Grew s ok m' where
  inv := h2.inv
  keeps := fun p hp => h2.keeps p (h1.keeps p hp)
  live := fun p hp => h2.live p (h1.live p hp)
  unique := fun hok hu => h2.unique hok (h1.unique hok hu)
  ptr := h2.ptr
  supply := h2.supply

/-- A component of a path is short enough to be stored as it is. -/
theorem mkdirP_spec (h : Inv s) (ho : Offers s supply) (path : Option CStr) :
    ∃ m, mkdirP path supply s = some m ∧ Grew s True m := by
  cases path with
  | none => exact ⟨_, rfl, grew_same h ho (Or.inl rfl)⟩
  | some p =>
    refine mkdirFrom_rule (I := Grew s True) ?_ ?_ _ (grew_same h ho (place_root s))
    · intro m p hg
      rcases finddir_spec hg.inv hg.ptr (component p) with ⟨c, hc, hplace⟩
      exact ⟨c, hc, fun _ => { hg with ptr := hplace }⟩
    · intro m p hg
      rcases attempt_spec hg.inv hg.ptr (fresh_dirNode _ _) rfl
        (mkdir_attempt hg.inv hg.supply hg.ptr (component p)) with ⟨m', hm', hg'⟩
      have hstore : Storable m.vfs m.ptr (component p) := fun _ => length_take_le _ _
      exact ⟨m', hm', grew_trans hg { hg' with unique := fun _ => hg'.unique hstore }⟩

end Create

/-! ### Removal and moving -/

section Remove

variable {s : Vfs}

theorem slotNamed_spec (h : Inv s) (hd : s.nodes dir = some d)
    (name : CStr) (k i : Nat) (hk : i + k ≤ d.numChildren) :
    ∃ r, slotNamed s d name k i = some r ∧ ∀ j, r = some j → j < d.numChildren := by
  induction k generalizing i with
  | zero => exact ⟨none, rfl, fun j hj => absurd hj (some_ne_none j).symm⟩
  | succ k ih =>
    have hkid := mem_kids_slot hd (show i < d.numChildren by omega) rfl
    have hne := kid_ne_zero h hkid
    rcases live_of_kid h hkid with ⟨c, hc⟩
    rw [slotNamed, if_neg hne, hc, bind_some]
    by_cases hname : c.name = name
    · rw [if_pos hname]
      refine ⟨_, rfl, fun j hj => ?_⟩
      rw [some.injEq] at hj
      omega
    · rw [if_neg hname]
      exact ih (i + 1) (by omega)

/-- The child that `unlink` would remove. -/
def victim (s : Vfs) (parent : Ptr) (name : CStr) : Option Ptr :=
  (s.nodes parent).bind (fun p =>
    if p.flags &&& VFS_DIRECTORY = 0 then none
    else ((slotNamed s p name p.numChildren 0).bind id).map p.children)

/-- Unlinking does nothing, or comes down to cutting off one child. It does
    not come back from a file of the initial ramdisk. -/
theorem unlink_cases (h : Inv s) (hpar : Place s parent) (name : CStr) :
    (victim s parent name = none ∧ unlink parent name s = some (s, -1)) ∨
      ∃ p idx x n, Child s parent x p idx ∧ victim s parent name = some x ∧
        s.nodes x = some n ∧ unlink parent name s =
          if n.privateData = .initrdFile then none else some (cut s parent x p idx, 0) := by
  unfold victim unlink
  by_cases h0 : parent = 0
  · rw [if_pos h0, h0, h.null]
    exact Or.inl ⟨rfl, rfl⟩
  have hr := hpar.resolve_left h0
  rcases live_of_reaches h hr h0 with ⟨p, hp⟩
  rw [if_neg h0, hp, bind_some, bind_some]
  by_cases hdir : p.flags &&& VFS_DIRECTORY = 0
  · rw [if_pos hdir, if_pos hdir]
    exact Or.inl ⟨rfl, rfl⟩
  rcases slotNamed_spec h hp name p.numChildren 0 (by omega) with ⟨found, hfound, hlt⟩
  rw [if_neg hdir, if_neg hdir, hfound, bind_some, bind_some]
  cases found with
  | none => exact Or.inl ⟨rfl, rfl⟩
  | some idx =>
    have hk : Child s parent (p.children idx) p idx := ⟨hr, hp, hlt idx rfl, rfl⟩
    rcases live_of_kid h hk.mem with ⟨n, hn⟩
    refine Or.inr ⟨p, idx, _, n, hk, rfl, hn, ?_⟩
    simp only [hn, bind_some, nodes_freeNode_of_ne s (hk.ne h), hp, map_some]
    rfl

/-- A child is found in its slot. -/
theorem slotOf_spec {q : Ptr} {p : VfsNode} (hq : Reaches s q) (hp : s.nodes q = some p)
    (hx : x ∈ kids s q) : ∃ idx, slotOf p x = some idx ∧ Child s q x p idx := by
  rcases mem_kids.mp hx with ⟨n, i, hn, hi, hc⟩
  rw [hp, some.injEq] at hn
  unfold slotOf
  cases hf : (List.range p.numChildren).find? (fun i => decide (p.children i = x)) with
  | none =>
    have := List.find?_eq_none.mp hf i (mem_range.mpr (hn ▸ hi))
    exact absurd (decide_eq_true (by rw [hn]; exact hc)) this
  | some idx =>
    refine ⟨idx, rfl, hq, hp, mem_range.mp (mem_of_find?_eq_some hf), ?_⟩
    have := List.find?_some hf
    exact of_decide_eq_true this

section Move

variable {q d : Ptr} {p : VfsNode} {idx : Nat} {name : CStr}

/-- No child but `x` itself has the name that `x` gets. -/
def Free (s : Vfs) (x d : Ptr) (name : CStr) : Prop :=
  ∀ c ∈ kids s d, nameAt s c = some (copyName name) → c = x

/-- The node is taken out and renamed, and then added to the new place, or
    back to the old one. -/
theorem moveNode_eq (h : Inv s) (hk : Child s q x p idx) (hslot : slotOf p x = some idx)
    (hn : s.nodes x = some n) (d : Ptr) (name : CStr) :
    moveNode x q d name s =
      (addChild d x (renamed s q x p n idx (copyName name))).bind (fun r =>
        if r.2 < 0 then (addChild q x r.1).map (fun back => (back.1, -28))
        else some (r.1, 0)) := by
  unfold moveNode
  rw [hk.dir, bind_some, hslot]
  simp only [nodes_setNode_of_ne (hk.ne h).symm, hn, bind_some]
  rfl

/-- A slot has just become free. -/
theorem room_removeSlot (h : Inv s) (hk : Child s q x p idx) : Room (p.removeSlot idx) := by
  have hok := h.nodes q p hk.dir
  have hused := hk.used
  have hb := hok.bound
  refine ⟨hok.dir (by omega), ?_⟩
  simp only [VfsNode.removeSlot]
  omega

/-- What a move is to do. -/
structure Moved (s : Vfs) (x q d : Ptr) (name : CStr) (t : Vfs) : Prop where
  inv : Inv t
  live : ∀ e, Live s e → Live t e
  keeps : ¬ Below (kids s) x d → ∀ e, Reaches s e → Reaches t e
  unique : Free s x d name → ((∀ m, s.nodes d = some m → ¬ Room m) → Free s x q name) →
    UniqueKids s → UniqueKids t

section Renamed

variable (h : Inv s) (hk : Child s q x p idx) (hn : s.nodes x = some n)

include h hk hn

/-- The old directory can still be reached, and so can every place that is
    not below the node. -/
theorem reaches_renamed (name : CStr) {e : Ptr} (he : Reaches s e)
    (hne : e = q ∨ ¬ Below (kids s) x e) : Reaches (renamed s q x p n idx name) e := by
  have ht := taken_renamed h hk hn name
  rcases hne with rfl | hne
  · refine below_dir (fun a c ha hc => ?_) he
    by_cases hcx : c = x
    · exact absurd (parent_unique h (hcx ▸ hc) hk.mem) ha
    · exact kept_renamed h hk hn name hcx hc
  · have hor := below_without (fun a c => kept_renamed h hk hn name) he
    refine hor.resolve_right (fun hx => hne ?_)
    exact below_mono (fun a _ hc => (ht.sub h hk a).subset hc) hx

/-- Nothing is lost once the node hangs in a place that can be reached. -/
theorem hung_keeps {t : Vfs} {e : Ptr} (hung : Hung (renamed s q x p n idx name) d x t)
    (hd : Reaches (renamed s q x p n idx name) d) (he : Reaches s e) : Reaches t e := by
  have hx := Below.step d x (hung.keeps hd) hung.listed
  unfold Reaches
  rw [hung.root] at hx ⊢
  refine below_rehung (fun a c hcx hc => hung.mem.mpr (Or.inl ?_)) hx he
  exact kept_renamed h hk hn name hcx hc

/-- The names stay different if the new one is free. -/
theorem hung_unique {t : Vfs} (hung : Hung (renamed s q x p n idx (copyName name)) d x t)
    (hfree : Free s x d name) (hu : UniqueKids s) : UniqueKids t := by
  have hshrunk := (taken_renamed h hk hn (copyName name)).shrunk h hk
  refine hung.unique (hshrunk.unique hu) (fun hmem => ?_)
  rw [nameAt, nodes_renamed, map_some] at hmem
  rcases mem_map.mp hmem with ⟨c, hc, hname⟩
  have hcx : c ≠ x := fun hcx => hshrunk.unlisted d (hcx ▸ hc)
  rw [hshrunk.name c hcx] at hname
  exact hcx (hfree c ((hshrunk.sub d).subset hc) hname)

/-- A directory that was not full does not become full. -/
theorem room_renamed (name : CStr) {m : VfsNode} (hm : s.nodes d = some m) (hroom : Room m) :
    ∃ m', (renamed s q x p n idx name).nodes d = some m' ∧ Room m' := by
  by_cases hdq : d = q
  · exact ⟨_, hdq ▸ (taken_renamed h hk hn name).self, room_removeSlot h hk⟩
  by_cases hdx : d = x
  · rw [hdx, hn, some.injEq] at hm
    rw [← hm] at hroom
    exact ⟨{ n with name := name }, by rw [hdx]; exact nodes_renamed, hroom⟩
  · exact ⟨m, by rw [(taken_renamed h hk hn name).other d hdq hdx]; exact hm, hroom⟩

/-- Going back always works. -/
theorem addChild_back (name : CStr) :
    ∃ t, addChild q x (renamed s q x p n idx name) = some (t, 0) ∧
      Hung (renamed s q x p n idx name) q x t := by
  have ht := taken_renamed h hk hn name
  refine (addChild_loose (ht.inv h hk) (fun _ => ⟨_, ht.self⟩)
    (loose_renamed h hk hn name)).resolve_left (fun hfull => ?_)
  exact hfull.2 _ ht.self (room_removeSlot h hk)

end Renamed

/-- Moving keeps the invariant, wherever the node goes. Nothing is lost unless
    that is below the node. If there is no room, the node goes back to where
    it was, under its new name. -/
theorem moveNode_spec (h : Inv s) (hq : Reaches s q) (hx : x ∈ kids s q) (hd : Place s d)
    (name : CStr) : ∃ r, moveNode x q d name s = some r ∧ Moved s x q d name r.1 := by
  rcases mem_kids.mp hx with ⟨p, _, hp, _, _⟩
  rcases live_of_kid h hx with ⟨n, hn⟩
  rcases slotOf_spec hq hp hx with ⟨idx, hslot, hk⟩
  have ht := taken_renamed h hk hn (copyName name)
  have hlive : ∀ {e}, Live s e → Live (renamed s q x p n idx (copyName name)) e :=
    fun he => live_setNode (live_setNode he)
  rw [moveNode_eq h hk hslot hn]
  have hdlive : d ≠ 0 → Live (renamed s q x p n idx (copyName name)) d :=
    fun hd0 => hlive (live_of_reaches h (hd.resolve_left hd0) hd0)
  rcases addChild_loose (ht.inv h hk) hdlive (loose_renamed h hk hn _) with
    ⟨hadd, hfull⟩ | ⟨t, hadd, hung⟩
  · rcases addChild_back h hk hn (copyName name) with ⟨t, hback, hung⟩
    simp only [hadd, bind_some, show (-1 : Int) < 0 by decide, if_true, hback, map_some]
    refine ⟨_, rfl, hung.inv, fun e he => hung.live.mpr (hlive he), fun _ e he => ?_, ?_⟩
    · exact hung_keeps h hk hn hung (reaches_renamed h hk hn _ hq (Or.inl rfl)) he
    · intro _ hfree hu
      refine hung_unique h hk hn hung (hfree (fun m hm hroom => ?_)) hu
      rcases room_renamed h hk hn (copyName name) hm hroom with ⟨m', hm', hroom'⟩
      exact hfull m' hm' hroom'
  · rw [hadd, bind_some, if_neg (show ¬ (0 : Int) < 0 by decide)]
    refine ⟨_, rfl, hung.inv, fun e he => hung.live.mpr (hlive he), fun hnot e he => ?_, ?_⟩
    · have hd0 : d ≠ 0 := by
        rcases hung.room with ⟨m, hm, _⟩
        exact ne_of_dead (ht.inv h hk).null hm
      exact hung_keeps h hk hn hung
        (reaches_renamed h hk hn _ (hd.resolve_left hd0) (Or.inr hnot)) he
    · exact fun hfree _ hu => hung_unique h hk hn hung hfree hu

end Move

end Remove

end SysRust.Vfs
