import SysRust.Lib.Machine
import SysRust.Theory.Vfs.Init

/-!
# Runs of the File System

All sequences of creating, unlinking and renaming from `vfs::init` on. The
tree stays well formed, and only unlinking loses nodes, as long as no node is
moved below itself: `sys_rename` takes the node out of its directory and adds
it to the new one without looking whether that is part of what it moves.

## Main definitions

* `Request`, `sessions`: The operations and all their runs.
* `InSlot`, `WellFormed`: The tree as the arrays and pointers show it.
* `Careful`: No move of a node below itself, and no unlinking of a file of
  the initial ramdisk.
* `Apart`: The requests that do not run into a name already there.
* `Unlinked`, `Frees`: The nodes that a request is meant to remove, and the
  one it frees.
* `Serves`: What a request that comes back has done.

## Theorems

* `wellFormed_of_inv`: The invariant is what is to be shown.
* `serve_spec`: A request comes back and does what it is to do, unless it
  unlinks a file of the initial ramdisk.
* `tree_reachable`: The tree in every run of careful requests.
* `rename_below_itself`: A move of a node below itself loses it.
-/

namespace SysRust.Vfs

open ChildTree Option

/-! ### Requests -/

inductive Request where
  | mkdir (parent : Ptr) (name : Option CStr) (supply : List Ptr)
  | mkdirP (path : Option CStr) (supply : List Ptr)
  | createFileIn (parent : Ptr) (name : Option CStr) (supply : List Ptr)
  | createDirIn (parent : Ptr) (name : Option CStr) (supply : List Ptr)
  | unlinkPath (path : Option CStr)
  | rename (oldPath newPath : Option CStr)

/-- Directories are named by null or by a node that a lookup can return. -/
def Allowed (s : Vfs) : Request → Prop
  | .mkdir parent _ supply => Place s parent ∧ Offers s supply
  | .mkdirP _ supply => Offers s supply
  | .createFileIn parent _ supply => Place s parent ∧ Offers s supply
  | .createDirIn parent _ supply => Place s parent ∧ Offers s supply
  | .unlinkPath _ => True
  | .rename _ _ => True

def serve (s : Vfs) : Request → Option Vfs
  | .mkdir parent name supply => (mkdir parent name supply s).map Made.vfs
  | .mkdirP path supply => (mkdirP path supply s).map Made.vfs
  | .createFileIn parent name supply => (createFileIn parent name supply s).map Made.vfs
  | .createDirIn parent name supply => (createDirIn parent name supply s).map Made.vfs
  | .unlinkPath path => (unlinkPath path s).map Prod.fst
  | .rename oldPath newPath => (sysRename oldPath newPath s).map Prod.fst

/-- All runs from `vfs::init`, with any files in the ramdisk. -/
def sessions : Machine Vfs Request where
  start := fun s => ∃ names supply, Offers { root := 0, nodes := fun _ => none } supply ∧
    init names supply = some s
  allows := Allowed
  exec := serve

/-- The node that `unlink_path` would remove. -/
def pathVictim (s : Vfs) (path : Option CStr) : Option Ptr :=
  path.bind (fun path =>
    if path = [] then none
    else
      (splitPath (-1) (-1) s path).bind (fun r =>
        match r with
        | .error _ => none
        | .ok (parent, name) => if name = [] then none else victim s parent name))

/-- The node that `sys_rename` would move, the directory it would move it to,
    and the name that it gets. -/
def Renames (s : Vfs) (oldPath newPath : Option CStr) (x d : Ptr) (name : CStr) : Prop :=
  resolvePath s oldPath = some x ∧ x ≠ s.root ∧
    ∃ p, newPath = some p ∧ name ≠ [] ∧ splitPath (-36) (-2) s p = some (.ok (d, name))

/-- The same without the name. -/
def Moves (s : Vfs) (oldPath newPath : Option CStr) (x d : Ptr) : Prop :=
  ∃ name, Renames s oldPath newPath x d name

variable {s : Vfs}

/-- A node is not moved below itself, and what is unlinked is not a file of
    the initial ramdisk. -/
def Careful (s : Vfs) : Request → Prop
  | .unlinkPath path => ∀ x n, pathVictim s path = some x → s.nodes x = some n →
      n.privateData ≠ .initrdFile
  | .rename oldPath newPath => ∀ x d, Moves s oldPath newPath x d → ¬ Below (kids s) x d
  | _ => True

/-- A request does not run into a name already there: a name that is cut when
    it is stored is new, and so is the name a node gets in its new directory,
    or in its old one if the new one is full. What is unlinked is not a file
    of the initial ramdisk. -/
def Apart (s : Vfs) : Request → Prop
  | .mkdir parent name _ => StorableName s parent name
  | .mkdirP _ _ => True
  | .createFileIn parent name _ => StorableName s parent name
  | .createDirIn parent name _ => StorableName s parent name
  | .unlinkPath path => ∀ x n, pathVictim s path = some x → s.nodes x = some n →
      n.privateData ≠ .initrdFile
  | .rename oldPath newPath => ∀ x d name, Renames s oldPath newPath x d name →
      Free s x d name ∧
        ((∀ m, s.nodes d = some m → ¬ Room m) → ∀ q, x ∈ kids s q → Free s x q name)

/-- The nodes that a request is meant to remove. -/
def Unlinked (s : Vfs) : Request → Ptr → Prop
  | .unlinkPath path, p => ∃ x, pathVictim s path = some x ∧ Below (kids s) x p
  | _, _ => False

/-- The node that a request frees. -/
def Frees (s : Vfs) : Request → Ptr → Prop
  | .unlinkPath path, x => pathVictim s path = some x
  | _, _ => False

/-! ### Well-formed trees -/

/-- The pointer is in a used slot of a node that can be reached. -/
def InSlot (s : Vfs) (d : Ptr) (i : Nat) (p : Ptr) : Prop :=
  Reaches s d ∧ ∃ n, s.nodes d = some n ∧ i < n.numChildren ∧ n.children i = p

/-- The nodes that can be reached form a tree: each but the root is in one
    slot, and its parent pointer says whose; the used slots are those that
    are not null. -/
structure WellFormed (s : Vfs) : Prop where
  live : ∀ p, Reaches s p → p ≠ 0 → ∃ n, s.nodes p = some n
  bound : ∀ p n, Reaches s p → s.nodes p = some n → n.numChildren ≤ VFS_MAX_CHILDREN
  slots : ∀ p n, Reaches s p → s.nodes p = some n → ∀ i, i < VFS_MAX_CHILDREN →
    (n.children i ≠ 0 ↔ i < n.numChildren)
  once : ∀ p, Reaches s p → p ≠ s.root →
    ∃ d i, InSlot s d i p ∧ ∀ e j, InSlot s e j p → e = d ∧ j = i
  parent : ∀ d i p, InSlot s d i p → parentOf s p = some d
  top : ∀ d i, ¬ InSlot s d i s.root

theorem inSlot_kid {d p : Ptr} {i : Nat} (h : InSlot s d i p) : p ∈ kids s d := by
  rcases h.2 with ⟨n, hn, hi, hc⟩
  exact mem_kids.mpr ⟨n, i, hn, hi, hc⟩

theorem wellFormed_of_inv (h : Inv s) : WellFormed s where
  live := fun _ hp h0 => live_of_reaches h hp h0
  bound := fun p n _ hn => (h.nodes p n hn).bound
  slots := fun p n _ hn i _ => (h.nodes p n hn).used i
  once := by
    intro p hp hroot
    cases hp with
    | refl => exact absurd rfl hroot
    | step d _ hd hkid =>
      rcases mem_kids.mp hkid with ⟨n, i, hn, hi, hc⟩
      refine ⟨d, i, ⟨hd, n, hn, hi, hc⟩, fun e j hslot => ?_⟩
      have hed := parent_unique h (inSlot_kid hslot) hkid
      refine ⟨hed, ?_⟩
      -- Two slots of one node hold different pointers.
      rcases hslot.2 with ⟨m, hm, hj, hcj⟩
      rw [hed, hn, some.injEq] at hm
      have hnd := h.nodup d
      rw [kids_some hn] at hnd
      rw [← hm] at hj hcj
      exact List.inj_on_of_nodup_map hnd (List.mem_range.mpr hj) (List.mem_range.mpr hi)
        (hcj.trans hc.symm)
  parent := fun d i p hslot => h.listed d p (inSlot_kid hslot)
  top := fun d i hslot => root_not_kid h d (inSlot_kid hslot)

/-! ### One request -/

/-- What a request that comes back has done: it keeps the invariant, loses and
    frees what it is meant to, and keeps names different. -/
structure Serves (s : Vfs) (o : Request) (t : Vfs) : Prop where
  inv : Inv t
  loses : Careful s o → ∀ p, Reaches s p → Reaches t p ∨ Unlinked s o p
  unique : Apart s o → UniqueKids s → UniqueKids t
  live : ∀ e, Live s e → ¬ Frees s o e → Live t e
  freed : ∀ e, Frees s o e → ¬ Live t e

section Step

theorem serves_same (h : Inv s) {o : Request} (hf : ∀ e, ¬ Frees s o e) : Serves s o s :=
  ⟨h, fun _ _ hp => Or.inl hp, fun _ hu => hu, fun _ he _ => he, fun e he => absurd he (hf e)⟩

theorem serves_grew (o : Request) (hf : ∀ e, ¬ Frees s o e) {ok : Prop} (hok : Apart s o → ok)
    {r : Option Made} (hr : ∃ m, r = some m ∧ Grew s ok m) :
    ∃ t, r.map Made.vfs = some t ∧ Serves s o t := by
  rcases hr with ⟨m, hm, hg⟩
  exact ⟨m.vfs, by rw [hm]; rfl, hg.inv, fun _ p hp => Or.inl (hg.keeps p hp),
    fun ha => hg.unique (hok ha), fun e he _ => hg.live e he, fun e he => absurd he (hf e)⟩

/-- A path to unlink is refused, or names a directory and a child. -/
theorem unlinkPath_cases (h : Inv s) (path : Option CStr) :
    (pathVictim s path = none ∧ ∃ e, unlinkPath path s = some (s, e)) ∨
      ∃ parent name, Place s parent ∧ pathVictim s path = victim s parent name ∧
        unlinkPath path s = unlink parent name s := by
  cases path with
  | none => exact Or.inl ⟨rfl, -1, rfl⟩
  | some p =>
    simp only [unlinkPath, pathVictim, bind_some]
    by_cases hp : p = []
    · exact Or.inl ⟨if_pos hp, -1, if_pos hp⟩
    rcases splitPath_spec h (-1) (-1) p with ⟨r, hr, hplace⟩
    rw [if_neg hp, if_neg hp, hr, bind_some, bind_some]
    cases r with
    | error e => exact Or.inl ⟨rfl, e, rfl⟩
    | ok q =>
      rcases q with ⟨parent, name⟩
      by_cases hname : name = []
      · exact Or.inl ⟨if_pos hname, -1, if_pos hname⟩
      · exact Or.inr ⟨parent, name, hplace parent name rfl, if_neg hname, if_neg hname⟩

/-- Unlinking comes back unless it frees a file of the initial ramdisk. -/
theorem unlinkPath_serves (h : Inv s) (path : Option CStr) :
    (∃ t, (unlinkPath path s).map Prod.fst = some t ∧ Serves s (.unlinkPath path) t) ∨
      ∃ x n, pathVictim s path = some x ∧ s.nodes x = some n ∧ n.privateData = .initrdFile ∧
        unlinkPath path s = none := by
  rcases unlinkPath_cases h path with ⟨hnone, e, hsame⟩ | ⟨parent, name, hplace, hvictim, heq⟩
  · refine Or.inl ⟨s, by rw [hsame]; rfl, serves_same h (fun e he => ?_)⟩
    exact absurd (hnone.symm.trans he) (some_ne_none e).symm
  rw [heq]
  rcases unlink_cases h hplace name with ⟨hnone, hu⟩ | ⟨p, idx, x, n, hk, hx, hn, hu⟩
  · refine Or.inl ⟨s, by rw [hu]; rfl, serves_same h (fun e he => ?_)⟩
    exact absurd ((hvictim.trans hnone).symm.trans he) (some_ne_none e).symm
  have hx := hvictim.trans hx
  by_cases hfile : n.privateData = .initrdFile
  · exact Or.inr ⟨x, n, hx, hn, hfile, by rw [hu, if_pos hfile]⟩
  rw [hu, if_neg hfile]
  have ht := taken_cut h hk
  have hshrunk := ht.shrunk h hk
  refine Or.inl ⟨_, rfl, ht.inv h hk, fun _ e he => ?_, fun _ hun => hshrunk.unique hun,
    fun e he hf => ?_, fun e he hlive => ?_⟩
  · exact (below_cut (fun a c hax hcx hc => ht.kept h hk hax hcx hc) he).imp_right
      (fun he => ⟨x, hx, he⟩)
  · have hex : e ≠ x := by
      rintro rfl
      exact hf hx
    exact (hshrunk.live hex).mpr he
  · have hex : x = e := some.inj (hx.symm.trans he)
    rcases hlive with ⟨m, hm⟩
    rw [← hex, nodes_cut h hk] at hm
    cases hm

/-- A renaming is refused, or moves a child of its parent to a directory. -/
theorem sysRename_cases (h : Inv s) (oldPath newPath : Option CStr) :
    (∃ e, e ≠ 0 ∧ sysRename oldPath newPath s = some (s, e)) ∨
      ∃ x n d name, Renames s oldPath newPath x d name ∧ s.nodes x = some n ∧
        Reaches s n.parent ∧ x ∈ kids s n.parent ∧ Place s d ∧
        sysRename oldPath newPath s = moveNode x n.parent d name s := by
  cases oldPath with
  | none => exact Or.inl ⟨-14, by decide, rfl⟩
  | some old =>
    cases newPath with
    | none => exact Or.inl ⟨-14, by decide, rfl⟩
    | some new =>
      rcases resolvePath_spec h (some old) with ⟨x, hx, hxplace⟩
      simp only [sysRename, hx, bind_some]
      by_cases hx0 : x = 0
      · exact Or.inl ⟨-2, by decide, if_pos hx0⟩
      have hreach := hxplace.resolve_left hx0
      rcases live_of_reaches h hreach hx0 with ⟨n, hn⟩
      rw [if_neg hx0, hn, bind_some]
      by_cases hpar : n.parent = 0
      · exact Or.inl ⟨-1, by decide, if_pos hpar⟩
      rw [if_neg hpar]
      by_cases hnew : new = []
      · exact Or.inl ⟨-22, by decide, if_pos hnew⟩
      rcases splitPath_spec h (-36) (-2) new with ⟨r, hr, hplace⟩
      rw [if_neg hnew, hr, bind_some]
      cases r with
      | error e => exact Or.inl ⟨e, splitPath_error (by decide) (by decide) hr, rfl⟩
      | ok q =>
        rcases q with ⟨d, name⟩
        by_cases hname : name = []
        · exact Or.inl ⟨-22, by decide, if_pos hname⟩
        rcases parent_of_reaches h hreach hn hpar with ⟨hroot, hq, hkid⟩
        exact Or.inr ⟨x, n, d, name, ⟨hx, hroot, new, rfl, hname, hr⟩, hn, hq, hkid,
          hplace d name rfl, if_neg hname⟩

theorem sysRename_serves (h : Inv s) (oldPath newPath : Option CStr) :
    ∃ t, (sysRename oldPath newPath s).map Prod.fst = some t ∧
      Serves s (.rename oldPath newPath) t := by
  rcases sysRename_cases h oldPath newPath with
    ⟨e, _, hsame⟩ | ⟨x, n, d, name, hren, hn, hq, hkid, hd, heq⟩
  · exact ⟨s, by rw [hsame]; rfl, serves_same h (fun _ he => he)⟩
  rcases moveNode_spec h hq hkid hd name with ⟨r, hr, hmoved⟩
  rw [heq, hr]
  refine ⟨r.1, rfl, hmoved.inv, fun hc e he => ?_, fun ha => ?_, fun e he _ => hmoved.live e he,
    fun _ hf => hf.elim⟩
  · exact Or.inl (hmoved.keeps (hc x d ⟨name, hren⟩) e he)
  · rcases ha x d name hren with ⟨hfree, hback⟩
    exact hmoved.unique hfree (fun hfull => hback hfull _ hkid)

/-- A request comes back, unless it unlinks a file of the initial ramdisk. -/
theorem serve_spec (h : Inv s) {o : Request} (ha : Allowed s o) :
    (∃ t, serve s o = some t ∧ Serves s o t) ∨
      ∃ path x n, o = .unlinkPath path ∧ pathVictim s path = some x ∧ s.nodes x = some n ∧
        n.privateData = .initrdFile ∧ serve s o = none := by
  cases o with
  | mkdir parent name supply =>
    exact Or.inl (serves_grew (.mkdir parent name supply) (fun _ he => he) id
      (mkdir_spec h ha.2 ha.1 name))
  | mkdirP path supply =>
    exact Or.inl (serves_grew (.mkdirP path supply) (fun _ he => he) id (mkdirP_spec h ha path))
  | createFileIn parent name supply =>
    exact Or.inl (serves_grew (.createFileIn parent name supply) (fun _ he => he) id
      (createFileIn_spec h ha.2 ha.1 name))
  | createDirIn parent name supply =>
    exact Or.inl (serves_grew (.createDirIn parent name supply) (fun _ he => he) id
      (createDirIn_spec h ha.2 ha.1 name))
  | unlinkPath path =>
    refine (unlinkPath_serves h path).imp_right (fun hstuck => ?_)
    rcases hstuck with ⟨x, n, hx, hn, hfile, hnone⟩
    exact ⟨path, x, n, rfl, hx, hn, hfile, by rw [serve, hnone]; rfl⟩
  | rename oldPath newPath => exact Or.inl (sysRename_serves h oldPath newPath)

theorem serves_of_serve (h : Inv s) {o : Request} {t : Vfs} (ha : Allowed s o)
    (ht : serve s o = some t) : Serves s o t := by
  rcases serve_spec h ha with ⟨u, hu, hserves⟩ | ⟨_, _, _, _, _, _, _, hnone⟩
  · rw [ht, some.injEq] at hu
    exact hu ▸ hserves
  · rw [ht] at hnone
    cases hnone

end Step

/-! ### All runs -/

theorem inv_start (h : sessions.start s) : Inv s := by
  rcases h with ⟨names, supply, ho, hs⟩
  rcases init_spec names ho with ⟨t, ht, hinv, _⟩
  rw [hs, some.injEq] at ht
  exact ht ▸ hinv

theorem inv_reachable (hs : sessions.Reachable s) : Inv s :=
  Machine.Reachable.invariant Inv (fun _ h => inv_start h)
    (fun _ _ _ h ha he => (serves_of_serve h ha he).inv) hs

/-- In every run of careful requests the tree is well formed, and a careful
    request makes no node unreachable but those it is meant to remove. -/
theorem tree_reachable {s : Vfs} (hs : (sessions.restrict Careful).Reachable s) :
    WellFormed s ∧ ∀ o t, Allowed s o → Careful s o → serve s o = some t →
      ∀ p, Reaches s p → Reaches t p ∨ Unlinked s o p := by
  have h := inv_reachable (Machine.Reachable.of_restrict hs)
  exact ⟨wellFormed_of_inv h, fun o t ha hc he => (serves_of_serve h ha he).loses hc⟩

/-! ### A directory in itself -/

/-- Addresses for the root, `/dev` and the three devices. -/
def fiveNodes : List Ptr := [0x1000, 0x2000, 0x3000, 0x4000, 0x5000]

/-- `vfs::init` without a ramdisk, then `mkdir` of `/a`. -/
def withDir : Option Vfs :=
  (init [] fiveNodes).bind (fun s => serve s (.mkdir 0x1000 (some [97]) [0x6000]))

/-- Then `rename("/a", "/a/b")`. -/
def withLoop : Option Vfs :=
  withDir.bind (fun s => serve s (.rename (some [47, 97]) (some [47, 97, 47, 98])))

/-- The node `/a` is there after `mkdir`. -/
theorem withDir_spec : ∃ s, withDir = some s ∧ (sessions.restrict Careful).Reachable s ∧
    s.root = 0x1000 ∧ Reaches s 0x6000 := by
  have heval : withDir.map (fun s => (s.root, kids s 0x1000)) =
      some (0x1000, [0x2000, 0x6000]) := by
    decide
  have hinit : (init [] fiveNodes).map (fun s => (s.root, (s.nodes 0x6000).isNone)) =
      some (0x1000, true) := by
    decide
  rcases map_eq_some_iff.mp hinit with ⟨s0, hs0, hv0⟩
  rcases map_eq_some_iff.mp heval with ⟨s, hs, hv⟩
  rw [Prod.mk.injEq] at hv0 hv
  refine ⟨s, hs, ?_, hv.1, ?_⟩
  · have hstart : (sessions.restrict Careful).Reachable s0 :=
      Machine.Reachable.start s0 ⟨[], fiveNodes, ⟨fun _ _ _ => rfl, by decide⟩, hs0⟩
    refine Machine.Reachable.step s0 s (.mkdir 0x1000 (some [97]) [0x6000]) hstart
      ⟨⟨Or.inr (hv0.1 ▸ Below.refl), ⟨fun f hf _ => ?_, by decide⟩⟩, trivial⟩ ?_
    · rw [List.mem_singleton.mp hf]
      exact isNone_iff_eq_none.mp hv0.2
    · rw [withDir, hs0, bind_some] at hs
      exact hs
  · refine Below.step 0x1000 _ (hv.1 ▸ Below.refl) ?_
    rw [hv.2]
    decide

/-- The tree with `/a` is well formed. -/
theorem tree_reachable_withDir : ∃ s, withDir = some s ∧ WellFormed s ∧ Reaches s 0x6000 := by
  rcases withDir_spec with ⟨s, hs, hreach, _, ha⟩
  exact ⟨s, hs, (tree_reachable hreach).1, ha⟩

/-- Moving `/a` to `/a/b` succeeds and makes it unreachable: it is its own
    child, and no directory below the root lists it. -/
theorem rename_below_itself :
    ∃ s t, sessions.Reachable s ∧
      serve s (.rename (some [47, 97]) (some [47, 97, 47, 98])) = some t ∧
      Reaches s 0x6000 ∧ ¬ Reaches t 0x6000 ∧ kids t 0x6000 = [0x6000] := by
  rcases withDir_spec with ⟨s, hs, hreach, _, ha⟩
  have heval : withLoop.map (fun t => (t.root, kids t 0x6000, fiveNodes.map (kids t))) =
      some (0x1000, [0x6000], [[0x2000], [0x3000, 0x4000, 0x5000], [], [], []]) := by
    decide +kernel
  rcases map_eq_some_iff.mp heval with ⟨t, ht, hv⟩
  rw [Prod.mk.injEq, Prod.mk.injEq] at hv
  rw [withLoop, hs, bind_some] at ht
  refine ⟨s, t, Machine.Reachable.of_restrict hreach, ht, ha, fun hlost => ?_, hv.2.1⟩
  -- The five nodes of the start list only each other.
  have hin : (0x6000 : Ptr) ∈ fiveNodes := by
    refine below_closed (fun p => p ∈ fiveNodes) (hv.1 ▸ by decide) (fun d hd c hc => ?_) hlost
    have hmem : kids t d ∈ fiveNodes.map (kids t) := List.mem_map_of_mem hd
    rw [hv.2.2] at hmem
    have hall : ∀ l ∈ ([[0x2000], [0x3000, 0x4000, 0x5000], [], [], []] : List (List Ptr)),
        ∀ c ∈ l, c ∈ fiveNodes := by decide
    exact hall _ hmem c hc
  exact absurd hin (by decide)

end SysRust.Vfs
