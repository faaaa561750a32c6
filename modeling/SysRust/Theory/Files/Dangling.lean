import SysRust.Theory.Files.Descriptors
import SysRust.Theory.Vfs.Runs

/-!
# Descriptors and the Nodes They Refer To

`unlink` frees a node without looking at the descriptor table. So a
descriptor refers to a live node for as long as no path that is unlinked
names a node that is open, and no longer: the step that unlinks an open node
leaves its descriptor with a pointer to freed memory. Unlinking a directory
above an open node is harmless in this respect, as only the directory itself
is freed.

## Main definitions

* `Op`, `descriptors`: Descriptors and the tree, and all their runs.
* `Refers`: Every descriptor in use refers to a live node.
* `Unopened`: What is unlinked is not open.

## Theorems

* `exec_refers`: One step.
* `refers_iff`: The descriptors in every run.
* `unlink_open`: A descriptor to freed memory.
-/

namespace SysRust.Files

open Function Option

/-- Opening, closing, and the requests to the tree. -/
inductive Op where
  | openPath (path : Option CStr)
  | close (fd : Int)
  | tree (o : Vfs.Request)

def execOp (s : Files) : Op → Option Files
  | .openPath path => (vfsOpen path s).map Prod.fst
  | .close fd => some (vfsClose fd s)
  | .tree o => (Vfs.serve s.vfs o).map (fun v => { s with vfs := v })

def AllowedOp (s : Files) : Op → Prop
  | .tree o => Vfs.Allowed s.vfs o
  | _ => True

/-- All runs from `vfs::init`, with an empty descriptor table. -/
def descriptors : Machine Files Op where
  start := fun s => Vfs.sessions.start s.vfs ∧ ∀ i, (s.table i).inUse = false
  allows := AllowedOp
  exec := execOp

/-- Every descriptor in use refers to a node that has not been freed. -/
def Refers (s : Files) : Prop :=
  ∀ i, (s.table i).inUse = true → Vfs.Live s.vfs (s.table i).node

/-- The node that a path to unlink names is not open. -/
def Unopened (s : Files) : Op → Prop
  | .tree (.unlinkPath path) =>
    ∀ i, (s.table i).inUse = true → Vfs.pathVictim s.vfs path ≠ some (s.table i).node
  | _ => True

/-- What a step keeps of the tree and the table. -/
structure DescInv (s : Files) : Prop where
  tree : Vfs.Inv s.vfs
  refers : Refers s

variable {s : Files}

/-- A new entry that is not in use or refers to a live node. -/
theorem descInv_setEntry (h : DescInv s) (i : Nat) {e : FdEntry}
    (he : e.inUse = true → Vfs.Live s.vfs e.node) : DescInv (setEntry s i e) := by
  refine ⟨h.tree, fun j hj => ?_⟩
  simp only [setEntry] at hj ⊢
  by_cases hji : j = i
  · rw [hji, update_self] at hj ⊢
    exact he hj
  · rw [update_of_ne hji] at hj ⊢
    exact h.refers j hj

/-- Opening adds a descriptor for a node in the tree. -/
theorem vfsOpen_refers (h : DescInv s) {path : Option CStr} {r : Files × Int}
    (hr : vfsOpen path s = some r) : DescInv r.1 := by
  rcases vfsOpen_cases hr with rfl | ⟨p, i, hp, h0, _, _, rfl⟩
  · exact h
  -- A path leads to null or to a node that can be reached.
  rcases Vfs.resolvePath_spec h.tree path with ⟨c, hc, hplace⟩
  rw [hp, some.injEq] at hc
  exact descInv_setEntry h i
    (fun _ => Vfs.live_of_reaches h.tree ((hc ▸ hplace).resolve_left h0) h0)

theorem vfsClose_refers (h : DescInv s) (fd : Int) : DescInv (vfsClose fd s) := by
  unfold vfsClose
  split_ifs
  · exact h
  · exact descInv_setEntry h _ (fun huse => absurd huse Bool.false_ne_true)

/-- A step keeps the descriptors right exactly if it unlinks no open node. -/
theorem exec_refers {t : Files} {o : Op} (h : DescInv s) (ha : AllowedOp s o)
    (ht : execOp s o = some t) : Vfs.Inv t.vfs ∧ (Refers t ↔ Unopened s o) := by
  cases o with
  | openPath path =>
    rcases map_eq_some_iff.mp ht with ⟨r, hr, rfl⟩
    have hinv := vfsOpen_refers h hr
    exact ⟨hinv.tree, fun _ => trivial, fun _ => hinv.refers⟩
  | close fd =>
    cases ht
    have hinv := vfsClose_refers h fd
    exact ⟨hinv.tree, fun _ => trivial, fun _ => hinv.refers⟩
  | tree o =>
    rcases map_eq_some_iff.mp ht with ⟨v, hv, rfl⟩
    have hserves := Vfs.serves_of_serve h.tree ha hv
    refine ⟨hserves.inv, fun hrefers => ?_, fun hun i hi => ?_⟩
    · cases o with
      | unlinkPath path => exact fun i hi hvic => hserves.freed _ hvic (hrefers i hi)
      | _ => trivial
    · refine hserves.live _ (h.refers i hi) (fun hf => ?_)
      cases o with
      | unlinkPath path => exact hun i hi hf
      | _ => exact hf.elim

/-- In every run that unlinks no open node, every descriptor in use refers to
    a node that has not been freed. A step that does unlink an open node
    leaves a descriptor that does not. -/
theorem refers_iff {s : Files} (hs : (descriptors.restrict Unopened).Reachable s) :
    Refers s ∧ ∀ o t, descriptors.allows s o → descriptors.exec s o = some t →
      (Refers t ↔ Unopened s o) := by
  have hinv : DescInv s := by
    refine Machine.Reachable.invariant (M := descriptors.restrict Unopened) DescInv ?_ ?_ hs
    · rintro s ⟨hstart, hempty⟩
      refine ⟨Vfs.inv_start hstart, fun i hi => ?_⟩
      rw [hempty i] at hi
      exact absurd hi Bool.false_ne_true
    · rintro s t o h ⟨ha, hun⟩ he
      rcases exec_refers h ha he with ⟨htree, hiff⟩
      exact ⟨htree, hiff.mpr hun⟩
  exact ⟨hinv.refers, fun o t ha he => (exec_refers hinv ha he).2⟩

/-! ### An open file is unlinked -/

/-- The state after `vfs::init`. -/
def started (v : Vfs) : Files where
  vfs := v
  nodes := fun _ => { size := 0, backing := .directory }
  table := fun _ => FdEntry.empty
  keys := []
  screen := []

/-- A file `/f` is created and opened. -/
def withOpen : Option Files :=
  (Vfs.init [] Vfs.fiveNodes).bind (fun v =>
    (execOp (started v) (.tree (.createFileIn 0x1000 (some [102]) [0x6000, 0x7000, 0x8000]))).bind
      (fun s => execOp s (.openPath (some [47, 102]))))

theorem withOpen_spec : ∃ s, withOpen = some s ∧ (descriptors.restrict Unopened).Reachable s ∧
    (s.table 0).inUse = true ∧ (s.table 0).node = 0x6000 := by
  have hinit : (Vfs.init [] Vfs.fiveNodes).map (fun s =>
      (s.root, [0x6000, 0x7000, 0x8000].all (fun p => (s.nodes p).isNone))) =
      some (0x1000, true) := by
    decide
  have heval : withOpen.map (fun s => ((s.table 0).inUse, (s.table 0).node)) =
      some (true, 0x6000) := by
    decide +kernel
  rcases map_eq_some_iff.mp hinit with ⟨v, hv, hroot⟩
  rcases map_eq_some_iff.mp heval with ⟨s, hs, htable⟩
  rw [Prod.mk.injEq] at hroot htable
  refine ⟨s, hs, ?_, htable⟩
  rw [withOpen, hv, bind_some] at hs
  rcases bind_eq_some_iff.mp hs with ⟨u, hu, hs⟩
  have hstart : (descriptors.restrict Unopened).Reachable (started v) :=
    Machine.Reachable.start _ ⟨⟨[], Vfs.fiveNodes, ⟨fun _ _ _ => rfl, by decide⟩, hv⟩,
      fun _ => rfl⟩
  have hcreate : (descriptors.restrict Unopened).Reachable u := by
    refine Machine.Reachable.step (started v) u
      (.tree (.createFileIn 0x1000 (some [102]) [0x6000, 0x7000, 0x8000])) hstart
      ⟨⟨Or.inr ?_, ⟨fun f hf _ => ?_, by decide⟩⟩, trivial⟩ hu
    · exact (hroot.1 : v.root = 0x1000) ▸ ChildTree.Below.refl
    · exact isNone_iff_eq_none.mp (List.all_eq_true.mp hroot.2 f hf)
  exact Machine.Reachable.step u s (.openPath (some [47, 102])) hcreate ⟨trivial, trivial⟩ hs

/-- The descriptor of the file is right before the file is unlinked. -/
theorem refers_iff_withOpen : ∃ s, withOpen = some s ∧ Refers s ∧ (s.table 0).inUse = true := by
  rcases withOpen_spec with ⟨s, hs, hreach, huse, -⟩
  exact ⟨s, hs, (refers_iff hreach).1, huse⟩

/-- Unlinking `/f` while it is open frees the node the descriptor refers to. -/
theorem unlink_open : ∃ s, descriptors.Reachable s ∧ ∃ i, i < MAX_OPEN_FILES ∧
    (s.table i).inUse = true ∧ ¬ Vfs.Live s.vfs (s.table i).node := by
  rcases withOpen_spec with ⟨s, hs, hreach, -, -⟩
  have heval : (withOpen.bind (fun s => execOp s (.tree (.unlinkPath (some [47, 102]))))).map
      (fun t => ((t.table 0).inUse, (t.vfs.nodes (t.table 0).node).isNone)) =
      some (true, true) := by
    decide +kernel
  rcases map_eq_some_iff.mp heval with ⟨t, ht, hv⟩
  rw [hs, bind_some] at ht
  rw [Prod.mk.injEq] at hv
  refine ⟨t, ?_, 0, by decide, hv.1, fun hlive => ?_⟩
  · exact Machine.Reachable.step s t (.tree (.unlinkPath (some [47, 102])))
      (Machine.Reachable.of_restrict hreach) trivial ht
  · rcases hlive with ⟨n, hn⟩
    rw [isNone_iff_eq_none.mp hv.2] at hn
    cases hn

end SysRust.Files
