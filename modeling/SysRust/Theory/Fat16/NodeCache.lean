import SysRust.Theory.Fat16.ByteFile
import SysRust.Theory.Fat16.Listing
import SysRust.Theory.Fat16.Runs

/-!
# Descriptors and the Cache of Nodes

A descriptor on a file below `/disk` holds a node, a node holds a name, and
reading and writing look the name up in the root directory. The cache keeps
one node for each number, and refreshing it writes the name of the file with
that number into the node. So a descriptor stays with its file for as long as
the file keeps its number, which ends when a file is created in a slot in
front of it: at the next lookup the node takes the name of the file that now
has the number.

A file is identified by its entry in the root directory, as entries are never
moved.

## Main definitions

* `Cached`, `Shows`: The cache, and a node that is up to date.
* `Session`, `Op`, `diskRuns`: Descriptors on `/disk`, and all their runs.
* `fileNamed`: The file that a name below `/disk` stands for.
* `ActsOnOwn`: Every descriptor acts on the file it was opened for.
* `Steady`: What is opened is found under its name, and no file is created in
  front of an open one.

## Theorems

* `refreshNodes_spec`: Refreshing brings every node up to date.
* `finddir_spec`: What opening finds.
* `step_inv`: One step.
* `actsOnOwn_reachable`: Every steady run, and what happens otherwise.
* `created_in_front`: A descriptor that changes its file.
-/

namespace SysRust.Fat16Vfs

open Fat16 Function Option

/-! ### Refreshing -/

/-- Node `k` has the name of the file with the number `k`. -/
def Shows (s : Fat16Vfs) (k : Nat) : Prop :=
  ∃ node, s.nodes[k]? = some node ∧ s.fat.getFileName k 13 = some node.name

/-- The nodes are the ones in the cache, in their order, and there are no more
    of them than files. -/
structure Cached (s : Fat16Vfs) : Prop where
  length : s.nodes.length = s.nodeCount
  slots : ∀ k, k < s.nodeCount → s.fileNodes k = some k
  bound : s.nodeCount ≤ min s.fat.getFileCount FAT16_VFS_MAX_FILES

variable {v : Fat16} {j size offset : Nat} {ata : Nat → Nat → WriteOutcome} {buf : Mem} {n : Int}
  {node node' : FileNode}

theorem getFileName_eq (hr : v.ready = true) (k : Nat) :
    v.getFileName k 13 = (fileEntry v.bpb v.disk k).map (fun i =>
      nameFrom83 (nameOf (readRootEntry v.bpb v.disk i))) := by
  rw [getFileName, if_neg]
  rintro (h | h)
  · rw [hr] at h
    exact Bool.noConfusion h
  · exact absurd h (by decide)

/-- What a refresh leaves behind. -/
structure Refreshed (s t : Fat16Vfs) : Prop where
  cached : Cached t
  fat : ∃ g, t.fat = { s.fat with heap := g }
  grows : s.nodeCount ≤ t.nodeCount
  shown : ∀ k, k < t.nodeCount → Shows t k

/-- The loop of `refresh_nodes`. Up to `i` the nodes are up to date; a node
    that was in the cache is never given up. -/
theorem refreshLoop_spec (phys : Nat → Nat → Nat) (n i : Nat) {s t : Fat16Vfs}
    (hr : s.fat.ready = true) (hn : i + n = min s.fat.getFileCount FAT16_VFS_MAX_FILES)
    (hlen : s.nodes.length = max s.nodeCount i)
    (hslots : ∀ k, k < max s.nodeCount i → s.fileNodes k = some k)
    (hbound : s.nodeCount ≤ min s.fat.getFileCount FAT16_VFS_MAX_FILES)
    (hshow : ∀ k, k < i → Shows s k) (h : refreshLoop phys n i s = some t) : Refreshed s t := by
  induction n generalizing i s with
  | zero =>
    rw [refreshLoop, some.injEq] at h
    subst h
    have hmax : max s.nodeCount i = i := by omega
    rw [hmax] at hlen hslots
    exact ⟨⟨hlen, hslots, by simp only; omega⟩, ⟨s.fat.heap, rfl⟩, by simp only; omega, hshow⟩
  | succ n ih =>
    rcases fileEntry_isSome hr (show i < s.fat.getFileCount by omega) with ⟨j, hj⟩
    have hname : s.fat.getFileName i 13 =
        some (nameFrom83 (nameOf (readRootEntry s.fat.bpb s.fat.disk j))) := by
      rw [getFileName_eq hr, hj, map_some]
    simp only [refreshLoop, hname] at h
    by_cases hold : i < s.nodeCount
    · -- The node is there and gets the name.
      rw [if_pos hold, hslots i (by omega)] at h
      have hmax : max s.nodeCount (i + 1) = max s.nodeCount i := by omega
      have hdone := ih (i + 1) (s := { s with nodes := s.nodes.set i _ }) hr (by simp only; omega)
        (by simp only [List.length_set]; omega) (by rw [hmax]; exact hslots) hbound ?_ h
      · exact ⟨hdone.cached, hdone.fat, hdone.grows, hdone.shown⟩
      · intro k hk
        by_cases hki : k = i
        · subst hki
          exact ⟨_, List.getElem?_set_self (by omega), hname⟩
        · rcases hshow k (by omega) with ⟨node, hnode, hnm⟩
          exact ⟨node, by rw [List.getElem?_set_ne (Ne.symm hki)]; exact hnode, hnm⟩
    · rw [if_neg hold] at h
      rcases bind_eq_some_iff.mp h with ⟨⟨g, p⟩, _, h⟩
      have hmax : max s.nodeCount i = i := by omega
      rw [hmax] at hlen hslots
      by_cases hp : p = 0
      · rw [if_pos hp, some.injEq] at h
        subst h
        have hbound' : i ≤ min s.fat.getFileCount FAT16_VFS_MAX_FILES := by omega
        exact ⟨⟨hlen, hslots, hbound'⟩, ⟨g, rfl⟩, by simp only; omega, hshow⟩
      · rw [if_neg hp] at h
        have hmax' : max s.nodeCount (i + 1) = i + 1 := by omega
        have hn' : i + 1 + n = min s.fat.getFileCount FAT16_VFS_MAX_FILES := by omega
        have hdone := ih (i + 1) (s := { s with
          fat := { s.fat with heap := g }
          nodes := s.nodes ++ [_]
          fileNodes := Function.update s.fileNodes i (some s.nodes.length) }) hr hn'
          (by simp only [List.length_append, List.length_singleton, hmax']; omega) ?_ hbound ?_ h
        · rcases hdone.fat with ⟨g', hg'⟩
          exact ⟨hdone.cached, ⟨g', hg'⟩, hdone.grows, hdone.shown⟩
        · intro k hk
          simp only [hmax'] at hk
          by_cases hki : k = i
          · simp only [hki, update_self, hlen]
          · simp only [update_of_ne hki]
            exact hslots k (by omega)
        · intro k hk
          by_cases hki : k = i
          · have hlast := List.getElem?_concat_length (l := s.nodes) (a := (⟨nameFrom83
              (nameOf (readRootEntry s.fat.bpb s.fat.disk j)), s.fat.getFileSize i⟩ : FileNode))
            rw [hlen] at hlast
            rw [hki]
            exact ⟨_, hlast, hname⟩
          · rcases hshow k (by omega) with ⟨node, hnode, hnm⟩
            refine ⟨node, ?_, hnm⟩
            rw [List.getElem?_append_left (by omega)]
            exact hnode

variable {phys : Nat → Nat → Nat}

theorem refreshNodes_spec {s t : Fat16Vfs} (hr : s.fat.ready = true) (hc : Cached s)
    (h : refreshNodes phys s = some t) : Refreshed s t := by
  have hmax : max s.nodeCount 0 = s.nodeCount := by omega
  exact refreshLoop_spec phys _ 0 hr (Nat.zero_add _) (by rw [hmax]; exact hc.length)
    (by rw [hmax]; exact hc.slots) hc.bound (fun k hk => absurd hk (Nat.not_lt_zero k)) h

/-! ### Descriptors and their runs -/

/-- A descriptor: its node, and the file it was opened for. The code has the
    node only. -/
structure Descriptor where
  node : Nat
  file : Option Nat
deriving DecidableEq

/-- The driver with its cache, and the descriptors on files below `/disk`. -/
structure Session where
  vfs : Fat16Vfs
  table : Nat → Option Descriptor

/-- The name of the file in an entry, as it is shown. -/
def shownName (v : Fat16) (j : Nat) : List UInt8 :=
  nameFrom83 (nameOf (readRootEntry v.bpb v.disk j))

/-- The regular files of the volume. -/
abbrev IsFile (v : Fat16) (j : Nat) : Prop :=
  Regular v.bpb.rootEntryCount (readRootEntry v.bpb v.disk) j

/-- The file that a name below `/disk` stands for. -/
def fileNamed (v : Fat16) (name : List UInt8) : Option Nat :=
  (List.range v.bpb.rootEntryCount).find? (fun j => decide (IsFile v j ∧ shownName v j = name))

/-- Opening a name with a free entry of the table, lookups, listings, writing
    a file by name, and reading, writing and closing a descriptor. Where a
    descriptor stands in its file does not matter, so offsets are any. -/
inductive Op where
  | openName (name : List UInt8) (fd : Nat) (phys : Nat → Nat → Nat)
  | lookup (name : List UInt8) (phys : Nat → Nat → Nat)
  | list (index : Nat) (phys : Nat → Nat → Nat)
  | writeFile (r : Fat16.Request)
  | read (fd offset size : Nat) (phys : Nat → Nat → Nat)
  | write (fd offset size : Nat) (data : Mem) (phys : Nat → Nat → Nat)
      (ata : Nat → Nat → WriteOutcome)
  | close (fd : Nat)

def execOp (s : Session) : Op → Option Session
  | .openName name fd phys => (fat16VfsFinddir phys name s.vfs).map (fun r =>
    match r.2 with
    | none => { s with vfs := r.1 }
    | some p =>
      { vfs := r.1
        table := Function.update s.table fd
          (some { node := p, file := fileNamed r.1.fat name }) })
  | .lookup name phys => (fat16VfsFinddir phys name s.vfs).map (fun r => { s with vfs := r.1 })
  | .list index phys => (fat16VfsReaddir phys index s.vfs).map (fun r => { s with vfs := r.1 })
  | .writeFile r => (s.vfs.fat.writeFile r.phys r.ata r.name r.data r.size).map (fun w =>
    { s with vfs := { s.vfs with fat := w.1 } })
  | .read fd offset size phys =>
    (s.table fd).bind (fun d => s.vfs.nodes[d.node]?.bind (fun node =>
      (fat16VfsRead phys node offset size s.vfs.fat).map (fun r =>
        { s with vfs := { s.vfs with fat := r.1 } })))
  | .write fd offset size data phys ata =>
    (s.table fd).bind (fun d => s.vfs.nodes[d.node]?.bind (fun node =>
      (fat16VfsWrite phys ata node offset size data s.vfs.fat).map (fun r =>
        { s with vfs := { s.vfs with fat := r.1, nodes := s.vfs.nodes.set d.node r.2.1 } })))
  | .close fd => some { s with table := Function.update s.table fd none }

def AllowedOp (s : Session) : Op → Prop
  | .openName _ fd _ => s.table fd = none
  | .writeFile r => ∀ c ∈ r.name, c ≠ 0
  | .read fd _ _ _ => s.table fd ≠ none
  | .write fd _ _ _ _ _ => s.table fd ≠ none
  | _ => True

/-- All runs from a mounted volume, whatever its directory holds, with no
    nodes and no descriptors. -/
def diskRuns : Machine Session Op where
  start := fun s => Mounted s.vfs.fat ∧ s.vfs.nodes = [] ∧ s.vfs.nodeCount = 0 ∧
    ∀ fd, s.table fd = none
  allows := AllowedOp
  exec := execOp

/-- The name in the node of every descriptor is looked up as the file it was
    opened for. This lookup is the first thing that reading and writing do. -/
def ActsOnOwn (s : Session) : Prop :=
  ∀ fd d, s.table fd = some d → ∃ node j, s.vfs.nodes[d.node]? = some node ∧ d.file = some j ∧
    findRootEntry s.vfs.fat.bpb s.vfs.fat.disk (nameTo83 node.name) = some j

/-- A file that is opened is the one that its name is looked up as. A file
    that is created goes behind the open ones, or its name makes it look like
    a deleted entry. -/
def Steady (s : Session) : Op → Prop
  | .openName name _ _ => ∀ j, fileNamed s.vfs.fat name = some j →
      findRootEntry s.vfs.fat.bpb s.vfs.fat.disk (nameTo83 name) = some j
  | .writeFile r => ∀ i, findRootEntry s.vfs.fat.bpb s.vfs.fat.disk (nameTo83 r.name) = none →
      findFreeRootEntry s.vfs.fat.bpb s.vfs.fat.disk = some i →
      (nameTo83 r.name).head? = some 0xE5 ∨
        ∀ fd d j, s.table fd = some d → d.file = some j → j < i
  | _ => True

/-! ### The invariant -/

/-- The descriptor's file has the number of its node, the node has the file's
    name, and the name is looked up as the file. -/
def Own (s : Fat16Vfs) (d : Descriptor) : Prop :=
  ∃ j node, d.file = some j ∧ d.node < s.nodeCount ∧
    fileEntry s.fat.bpb s.fat.disk d.node = some j ∧ s.nodes[d.node]? = some node ∧
    node.name = shownName s.fat j ∧
    findRootEntry s.fat.bpb s.fat.disk (nameTo83 node.name) = some j

structure Inv (s : Session) : Prop where
  ready : s.vfs.fat.ready = true
  cached : Cached s.vfs
  own : ∀ fd d, s.table fd = some d → Own s.vfs d

variable {s t : Session}

theorem Inv.actsOnOwn (h : Inv s) : ActsOnOwn s := by
  intro fd d hd
  rcases h.own fd d hd with ⟨j, node, hfile, _, _, hnode, _, hfind⟩
  exact ⟨node, j, hnode, hfile, hfind⟩

/-- The heap has no part in the invariant. -/
theorem Inv.withHeap (h : Inv s) (g : Heap) :
    Inv { s with vfs := { s.vfs with fat := { s.vfs.fat with heap := g } } } :=
  ⟨h.ready, ⟨h.cached.length, h.cached.slots, h.cached.bound⟩, h.own⟩

theorem inv_start (h : diskRuns.start s) : Inv s := by
  rcases h with ⟨hm, hnodes, hcount, htable⟩
  refine ⟨hm.ready, ⟨?_, fun k hk => ?_, ?_⟩, fun fd d hd => ?_⟩
  · rw [hnodes, hcount]
    rfl
  · omega
  · omega
  · rw [htable] at hd
    cases hd

/-! ### Lookups -/

section Lookup

variable {t : Fat16Vfs} {name : List UInt8} {p : Nat}

/-- Refreshing the cache keeps the invariant: a file that has kept its number
    gives its name to the same node. -/
theorem inv_refresh (h : Inv s) (hr : Refreshed s.vfs t) : Inv { s with vfs := t } := by
  rcases hr.fat with ⟨g, hg⟩
  refine ⟨by rw [hg]; exact h.ready, hr.cached, fun fd d hd => ?_⟩
  rcases h.own fd d hd with ⟨j, node, hfile, hlt, hnum, hnode, hname, hfind⟩
  have hgrows := hr.grows
  rcases hr.shown d.node (by omega) with ⟨node', hnode', hshown⟩
  have hready : t.fat.ready = true := by rw [hg]; exact h.ready
  have hnum' : fileEntry t.fat.bpb t.fat.disk d.node = some j := by rw [hg]; exact hnum
  rw [getFileName_eq hready, hnum', map_some, some.injEq] at hshown
  have hsame : node'.name = node.name := by
    rw [← hshown, hname, hg]
    rfl
  refine ⟨j, node', hfile, Nat.lt_of_lt_of_le hlt hgrows, hnum', hnode', hshown.symm, ?_⟩
  rw [hsame, hg]
  exact hfind

/-- The search in the cache finds the first node with the name. -/
theorem findNode_some (hc : Cached t) (n i : Nat) (hn : i + n = t.nodeCount)
    (h : findNode t name n i = some (some p)) :
    p < t.nodeCount ∧ (∃ node, t.nodes[p]? = some node ∧ node.name = name) ∧
      ∀ k node, i ≤ k → k < p → t.nodes[k]? = some node → node.name ≠ name := by
  induction n generalizing i with
  | zero => exact absurd h (by simp only [findNode, some.injEq, reduceCtorEq,
      not_false_eq_true])
  | succ n ih =>
    have hlt : i < t.nodes.length := by rw [hc.length]; omega
    rw [findNode, hc.slots i (by omega), bind_some, List.getElem?_eq_getElem hlt,
      map_some, bind_some] at h
    by_cases heq : t.nodes[i].name = name
    · simp only [heq, if_true, some.injEq] at h
      subst h
      exact ⟨by omega, ⟨_, List.getElem?_eq_getElem hlt, heq⟩, fun k _ h1 h2 => by omega⟩
    · simp only [heq, if_false] at h
      rcases ih (i + 1) (by omega) h with ⟨hp, hnode, hfirst⟩
      refine ⟨hp, hnode, fun k node h1 h2 hk => ?_⟩
      by_cases hki : k = i
      · rw [hki, List.getElem?_eq_getElem hlt, some.injEq] at hk
        rw [← hk]
        exact heq
      · exact hfirst k node (by omega) h2 hk

theorem finddir_refreshed (h : Inv s) {q : Option Nat}
    (hf : fat16VfsFinddir phys name s.vfs = some (t, q)) : Refreshed s.vfs t := by
  rcases bind_eq_some_iff.mp hf with ⟨t', hrefresh, hf⟩
  rcases map_eq_some_iff.mp hf with ⟨_, _, heq⟩
  rw [Prod.mk.injEq] at heq
  exact heq.1 ▸ refreshNodes_spec h.ready h.cached hrefresh

/-- A name that is found belongs to the first file that is shown with it. -/
theorem finddir_spec (h : Inv s) (hf : fat16VfsFinddir phys name s.vfs = some (t, some p)) :
    Refreshed s.vfs t ∧ p < t.nodeCount ∧ ∃ j node, fileNamed t.fat name = some j ∧
      fileEntry t.fat.bpb t.fat.disk p = some j ∧ t.nodes[p]? = some node ∧ node.name = name ∧
      shownName t.fat j = name := by
  have hr := finddir_refreshed h hf
  rcases bind_eq_some_iff.mp hf with ⟨t', _, hf⟩
  rcases map_eq_some_iff.mp hf with ⟨q, hfind, heq⟩
  rw [Prod.mk.injEq] at heq
  rcases heq with ⟨rfl, rfl⟩
  have hready : t'.fat.ready = true := by
    rcases hr.fat with ⟨g, hg⟩
    rw [hg]
    exact h.ready
  rcases findNode_some hr.cached _ 0 (Nat.zero_add _) hfind with ⟨hp, ⟨node, hnode, hname⟩, hfirst⟩
  -- A node of the cache has the name of the file with its number.
  have hshown : ∀ k, k < t'.nodeCount → ∀ j, fileEntry t'.fat.bpb t'.fat.disk k = some j →
      ∀ m, t'.nodes[k]? = some m → m.name = shownName t'.fat j := by
    intro k hk j hj m hm
    rcases hr.shown k hk with ⟨m', hm', hnm⟩
    rw [hm, some.injEq] at hm'
    rw [getFileName_eq hready, hj, map_some, some.injEq] at hnm
    rw [hm', ← hnm]
    rfl
  have hbound := hr.cached.bound
  rcases fileEntry_isSome hready (show p < t'.fat.getFileCount by omega) with ⟨j, hj⟩
  have hjname : shownName t'.fat j = name := (hshown p hp j hj node hnode).symm.trans hname
  refine ⟨hr, hp, j, node, ?_, hj, hnode, hname, hjname⟩
  have hreg := (fileEntry_some.mp hj).1
  refine List.find?_range_eq_some.mpr ⟨?_, List.mem_range.mpr hreg.1, fun k hk => ?_⟩
  · exact decide_eq_true ⟨hreg, hjname⟩
  · -- A file in front would have a smaller number, and its node the name.
    rw [Bool.not_eq_true', decide_eq_false_iff_not]
    rintro ⟨hk', hkname⟩
    obtain ⟨q, hq⟩ : ∃ q, fileEntry t'.fat.bpb t'.fat.disk q = some k :=
      ⟨_, fileEntry_some.mpr ⟨hk', rfl⟩⟩
    have hqp := fileEntry_lt hq hj hk
    rcases hr.shown q (by omega) with ⟨m, hm, _⟩
    refine hfirst q m (Nat.zero_le _) hqp hm ?_
    rw [hshown q (by omega) k hq m hm, hkname]

end Lookup

/-! ### Writes -/

section Write

variable {v' : Fat16} {name : List UInt8}

/-- A descriptor keeps its file if the entries up to it read the same. -/
theorem own_keeps {d : Descriptor} (h : Own s.vfs d) (hj : d.file = some j)
    (hb : v'.bpb = s.vfs.fat.bpb)
    (hsame : ∀ k, k ≤ j → SameHead (readRootEntry s.vfs.fat.bpb v'.disk k)
      (readRootEntry s.vfs.fat.bpb s.vfs.fat.disk k)) : Own { s.vfs with fat := v' } d := by
  rcases h with ⟨j', node, hfile, hlt, hnum, hnode, hname, hfind⟩
  have hjj : j = j' := some.inj (hj.symm.trans hfile)
  subst hjj
  rcases findRootEntry_keeps hsame hfind with ⟨hfind', hname'⟩
  refine ⟨j, node, hfile, hlt, ?_, hnode, ?_, ?_⟩
  · simp only [hb]
    exact fileEntry_keeps hsame hnum
  · rw [hname, shownName, shownName, hb, hname']
  · simp only [hb]
    exact hfind'

/-- No regular file is lost when one is written. -/
theorem files_written {phys : Nat → Nat} (hzero : ∀ c ∈ name, c ≠ 0)
    (hw : v.writeFile phys ata name buf size = some (v', n)) {k : Nat} (hk : IsFile v k) :
    IsFile v' k := by
  have hend : (nameTo83 name).head? ≠ some 0x00 := fun h0 => nameTo83_ne_end hzero h0 rfl
  rcases writeFile_dir hw with ⟨hb, _, hagree | ⟨i, c, _, hfree, hu⟩⟩
  · rw [IsFile, hb]
    exact (regular_keeps (fun j hj => Or.inl (hagree j (Nat.lt_of_le_of_lt hj hk.1)))).mpr hk
  · rw [IsFile, hb]
    exact regular_create (nameTo83_length name) hend (findFreeRootEntry_some hfree).2.1 hu hk

/-- So the cache is never too large. -/
theorem cached_written {c : Fat16Vfs} {phys : Nat → Nat} (hr : c.fat.ready = true) (hc : Cached c)
    (hzero : ∀ c ∈ name, c ≠ 0) (hw : c.fat.writeFile phys ata name buf size = some (v', n)) :
    v'.ready = true ∧ Cached { c with fat := v' } := by
  rcases writeFile_dir hw with ⟨hb, hready, _⟩
  have hready' : v'.ready = true := hready.trans hr
  have hcount : c.fat.getFileCount ≤ v'.getFileCount := by
    rw [getFileCount_eq hr, getFileCount_eq hready', hb]
    refine Nat.count_mono_left (fun k _ hk => ?_)
    have hk' := files_written hzero hw hk
    rwa [IsFile, hb] at hk'
  have hbound := hc.bound
  refine ⟨hready', hc.length, hc.slots, ?_⟩
  simp only
  omega

/-- A file that is written by name keeps the invariant, if it is not created
    in front of an open one. -/
theorem inv_written (h : Inv s) {phys : Nat → Nat} (hzero : ∀ c ∈ name, c ≠ 0)
    (hw : s.vfs.fat.writeFile phys ata name buf size = some (v', n))
    (hsteady : ∀ i, findRootEntry s.vfs.fat.bpb s.vfs.fat.disk (nameTo83 name) = none →
      findFreeRootEntry s.vfs.fat.bpb s.vfs.fat.disk = some i →
      (nameTo83 name).head? = some 0xE5 ∨
        ∀ fd d j, s.table fd = some d → d.file = some j → j < i) :
    Inv { s with vfs := { s.vfs with fat := v' } } := by
  rcases writeFile_dir hw with ⟨hb, _, hdir⟩
  rcases cached_written h.ready h.cached hzero hw with ⟨hready, hcached⟩
  refine ⟨hready, hcached, fun fd d hd => ?_⟩
  rcases h.own fd d hd with ⟨j, node, hfile, hrest⟩
  have hreg := (fileEntry_some.mp hrest.2.1).1
  refine own_keeps ⟨j, node, hfile, hrest⟩ hfile hb (fun k hk => ?_)
  rcases hdir with hagree | ⟨i, c, hnone, hfree, hu⟩
  · exact Or.inl (hagree k (Nat.lt_of_le_of_lt hk hreg.1))
  · by_cases hki : k = i
    · -- The slot is not behind the file, so only its name can have saved it.
      rcases hsteady i hnone hfree with hdel | hbehind
      · refine Or.inr ⟨?_, ?_⟩
        · rw [created_first (nameTo83_length name) (hki ▸ hu), some.injEq] at hdel
          exact hdel
        · rw [hki]
          rcases (findFreeRootEntry_some hfree).2.1 with h0 | h0
          · exact absurd h0 (hreg.2.1 i (hki ▸ hk))
          · exact h0
      · have hlt := hbehind fd d j hd hfile
        omega
    · exact Or.inl (agreeOn_mono (hu.2 k (Nat.lt_of_le_of_lt hk hreg.1) hki) (Nat.le_refl _)
        (by omega))

/-- Reading through a node changes the heap only. -/
theorem fat16VfsRead_state {r : Int × List UInt8}
    (h : fat16VfsRead phys node offset size v = some (v', r)) : ∃ g, v' = { v with heap := g } := by
  rw [fat16VfsRead] at h
  by_cases hz : node.size = 0
  · rw [if_pos hz, some.injEq, Prod.mk.injEq] at h
    exact ⟨v.heap, h.1.symm⟩
  rw [if_neg hz] at h
  by_cases hend : offset ≥ node.size
  · rw [if_pos hend, some.injEq, Prod.mk.injEq] at h
    exact ⟨v.heap, h.1.symm⟩
  rw [if_neg hend] at h
  rcases bind_eq_some_iff.mp h with ⟨⟨v1, p⟩, htake, h⟩
  rcases takeBuffer_cases htake with ⟨h1, rfl, _, _⟩
  by_cases hp : p = 0
  · simp only [if_pos hp, some.injEq, Prod.mk.injEq] at h
    exact ⟨h1, h.1.symm⟩
  simp only [if_neg hp] at h
  rcases bind_eq_some_iff.mp h with ⟨⟨v2, out, n⟩, hread, h⟩
  rcases map_eq_some_iff.mp h with ⟨h3, _, h⟩
  rcases readFile_state hread with ⟨g, rfl⟩
  split_ifs at h
  all_goals
    rw [Prod.mk.injEq] at h
    exact ⟨h3, h.1.symm⟩

/-- Writing through a node writes the file by the node's name, or gives up
    before it. -/
theorem fat16VfsWrite_state {data : Mem} {code : Int}
    (h : fat16VfsWrite phys ata node offset size data v = some (v', node', code)) :
    node'.name = node.name ∧ ((∃ g, v' = { v with heap := g }) ∨
      ∃ g g' phys' buf m w n,
        Fat16.writeFile phys' ata node.name buf m { v with heap := g } = some (w, n) ∧
          v' = { w with heap := g' }) := by
  rw [fat16VfsWrite] at h
  by_cases hoff : offset = 0
  · rw [if_pos hoff] at h
    rcases map_eq_some_iff.mp h with ⟨⟨w, n⟩, hw, h⟩
    split_ifs at h
    all_goals
      rw [Prod.mk.injEq, Prod.mk.injEq] at h
      exact ⟨by rw [← h.2.1], Or.inr ⟨v.heap, w.heap, _, _, _, w, n, hw, h.1.symm⟩⟩
  rw [if_neg hoff] at h
  rcases bind_eq_some_iff.mp h with ⟨⟨v1, p⟩, htake, h⟩
  rcases takeBuffer_cases htake with ⟨h1, rfl, _, _⟩
  by_cases hp : p = 0
  · simp only [if_pos hp, some.injEq, Prod.mk.injEq] at h
    exact ⟨by rw [← h.2.1], Or.inl ⟨h1, h.1.symm⟩⟩
  simp only [if_neg hp] at h
  rcases bind_eq_some_iff.mp h with ⟨⟨v2, out⟩, hread, h⟩
  have hstate : ∃ g, v2 = { v with heap := g } := by
    rcases readExisting_eq hread with ⟨_, rfl, _⟩ | ⟨n', hr⟩
    · exact ⟨h1, rfl⟩
    · rcases readFile_state hr with ⟨g, hg⟩
      exact ⟨g, hg⟩
  rcases hstate with ⟨g, rfl⟩
  by_cases hfit : newSize node offset size < offset + size
  · rw [if_pos hfit] at h
    cases h
  rw [if_neg hfit] at h
  rcases bind_eq_some_iff.mp h with ⟨⟨w, n⟩, hw, h⟩
  rcases map_eq_some_iff.mp h with ⟨h3, _, h⟩
  split_ifs at h
  all_goals
    rw [Prod.mk.injEq, Prod.mk.injEq] at h
    exact ⟨by rw [← h.2.1], Or.inr ⟨g, h3, _, _, _, w, n, hw, h.1.symm⟩⟩

/-- The size in a node has no part in the invariant. -/
theorem inv_setNode (h : Inv s) {p : Nat} (hnode : s.vfs.nodes[p]? = some node)
    (hname : node'.name = node.name) :
    Inv { s with vfs := { s.vfs with nodes := s.vfs.nodes.set p node' } } := by
  refine ⟨h.ready, ⟨?_, h.cached.slots, h.cached.bound⟩, fun fd d hd => ?_⟩
  · simp only [List.length_set]
    exact h.cached.length
  rcases h.own fd d hd with ⟨j, m, hfile, hlt, hnum, hm, hmname, hfind⟩
  by_cases hp : d.node = p
  · have hin : p < s.vfs.nodes.length := by
      rw [h.cached.length, ← hp]
      exact hlt
    rw [hp, hnode, some.injEq] at hm
    subst hm
    refine ⟨j, node', hfile, hlt, hnum, ?_, hname.trans hmname, by rw [hname]; exact hfind⟩
    simp only [hp]
    exact List.getElem?_set_self hin
  · refine ⟨j, m, hfile, hlt, hnum, ?_, hmname, hfind⟩
    rw [List.getElem?_set_ne (Ne.symm hp)]
    exact hm

end Write

/-! ### Whole runs -/

theorem shownName_ne_zero (v : Fat16) (j : Nat) : ∀ c ∈ shownName v j, c ≠ 0 := by
  intro c hc
  have hne := List.all_eq_true.mp List.all_takeWhile c hc
  exact bne_iff_ne.mp hne

/-- One steady step keeps the invariant. -/
theorem step_inv {o : Op} (h : Inv s) (ha : AllowedOp s o) (hsteady : Steady s o)
    (he : execOp s o = some t) : Inv t := by
  cases o with
  | openName name fd phys =>
    rcases map_eq_some_iff.mp he with ⟨⟨c, q⟩, hfind, heq⟩
    have hr := finddir_refreshed h hfind
    have hinv := inv_refresh h hr
    cases q with
    | none => exact heq ▸ hinv
    | some p =>
      rcases finddir_spec h hfind with ⟨_, hp, j, node, hnamed, hnum, hnode, hname, hshown⟩
      subst heq
      refine ⟨hinv.ready, hinv.cached, fun fd' d hd => ?_⟩
      by_cases hfd : fd' = fd
      · simp only [hfd, update_self, some.injEq] at hd
        subst hd
        rcases hr.fat with ⟨g, hg⟩
        refine ⟨j, node, hnamed, hp, hnum, hnode, hname.trans hshown.symm, ?_⟩
        rw [hname]
        simp only [hg]
        exact hsteady j (by rw [hg] at hnamed; exact hnamed)
      · simp only [update_of_ne hfd] at hd
        exact hinv.own fd' d hd
  | lookup name phys =>
    rcases map_eq_some_iff.mp he with ⟨⟨c, q⟩, hfind, heq⟩
    exact heq ▸ inv_refresh h (finddir_refreshed h hfind)
  | list index phys =>
    rcases map_eq_some_iff.mp he with ⟨⟨c, q⟩, hlist, heq⟩
    rcases map_eq_some_iff.mp hlist with ⟨c', hrefresh, hc⟩
    rcases hc with ⟨rfl, _⟩
    exact heq ▸ inv_refresh h (refreshNodes_spec h.ready h.cached hrefresh)
  | writeFile r =>
    rcases map_eq_some_iff.mp he with ⟨⟨w, n⟩, hw, heq⟩
    exact heq ▸ inv_written h ha hw hsteady
  | read fd offset size phys =>
    rcases bind_eq_some_iff.mp he with ⟨d, _, he⟩
    rcases bind_eq_some_iff.mp he with ⟨node, _, he⟩
    rcases map_eq_some_iff.mp he with ⟨⟨v', r⟩, hread, heq⟩
    rcases fat16VfsRead_state hread with ⟨g, rfl⟩
    exact heq ▸ h.withHeap g
  | write fd offset size data phys ata =>
    rcases bind_eq_some_iff.mp he with ⟨d, hd, he⟩
    rcases bind_eq_some_iff.mp he with ⟨node, hnode, he⟩
    rcases map_eq_some_iff.mp he with ⟨⟨v', node', code⟩, hwrite, heq⟩
    rcases fat16VfsWrite_state hwrite with ⟨hname, ⟨g, rfl⟩ | ⟨g, g', _, _, _, w, n, hw, rfl⟩⟩
    · exact heq ▸ inv_setNode (h.withHeap g) hnode hname
    · -- The name of an open file is found, so nothing is created.
      rcases h.own fd d hd with ⟨j, m, _, _, _, hm, hmname, hfind⟩
      rw [hnode, some.injEq] at hm
      subst hm
      have hw' := inv_written (h.withHeap g) (hmname ▸ shownName_ne_zero _ j) hw
        (fun i hnone => nomatch (hfind.symm.trans hnone))
      exact heq ▸ inv_setNode (hw'.withHeap g') hnode hname
  | close fd =>
    have hclose := some.inj he
    subst hclose
    refine ⟨h.ready, h.cached, fun fd' d hd => ?_⟩
    by_cases hfd : fd' = fd
    · simp only [hfd, update_self] at hd
      cases hd
    · simp only [update_of_ne hfd] at hd
      exact h.own fd' d hd

theorem inv_reachable (hs : (diskRuns.restrict Steady).Reachable s) : Inv s := by
  refine Machine.Reachable.invariant (M := diskRuns.restrict Steady) Inv ?_ ?_ hs
  · intro s h
    exact inv_start h
  · rintro s t o h ⟨ha, hsteady⟩ he
    exact step_inv h ha hsteady he

/-! ### Steps that are not steady -/

/-- The names of the files are shown in a way that leads back to them. -/
def NamesLeadBack (v : Fat16) : Prop :=
  ∀ k, IsFile v k → nameTo83 (shownName v k) = nameOf (readRootEntry v.bpb v.disk k)

/-- A name that is opened although it is looked up as another file. -/
theorem opened_other {name : List UInt8} {fd : Nat} (h : Inv s) (hfree : s.table fd = none)
    (hnot : ¬ Steady s (.openName name fd phys)) (he : execOp s (.openName name fd phys) = some t)
    (hfd : t.table fd ≠ none) : ¬ ActsOnOwn t := by
  rcases map_eq_some_iff.mp he with ⟨⟨c, q⟩, hfind, heq⟩
  cases q with
  | none =>
    subst heq
    exact absurd hfree hfd
  | some p =>
    rcases finddir_spec h hfind with ⟨hr, _, j, node, hnamed, _, hnode, hname, _⟩
    rcases hr.fat with ⟨g, hg⟩
    subst heq
    intro hown
    refine hnot (fun j' hj' => ?_)
    have hjj : j' = j := by
      rw [hg] at hnamed
      exact some.inj (hj'.symm.trans hnamed)
    rcases hown fd _ (update_self _ _ _) with ⟨node', j'', hnode', hfile, hlook⟩
    rw [hnode, some.injEq] at hnode'
    rw [hnamed, some.injEq] at hfile
    rw [← hnode', hname, ← hfile, hg] at hlook
    rw [hjj]
    exact hlook

/-- Counting up to `j` gives more if something in front of it is new. -/
theorem count_lt_count {p q : Nat → Prop} [DecidablePred p] [DecidablePred q] {i : Nat}
    (hpq : ∀ k, p k → q k) (hp : ¬ p i) (hq : q i) (hij : i < j) :
    Nat.count p j < Nat.count q j := by
  obtain ⟨m, rfl⟩ := Nat.exists_eq_add_of_le (show i + 1 ≤ j from hij)
  have hfront : Nat.count p i ≤ Nat.count q i := Nat.count_mono_left (fun k _ => hpq k)
  have hback : Nat.count (fun k => p (i + 1 + k)) m ≤ Nat.count (fun k => q (i + 1 + k)) m :=
    Nat.count_mono_left (fun k _ => hpq (i + 1 + k))
  rw [Nat.count_add, Nat.count_add q, Nat.count_succ_eq_count_iff.mpr hp,
    Nat.count_succ_eq_succ_count_iff.mpr hq]
  omega

/-- A file that is created in front of an open one takes the node of the open
    one to another file with the next listing. -/
theorem created_shifts {u : Session} {r : Fat16.Request} {index : Nat} (h : Inv s)
    (hzero : ∀ c ∈ r.name, c ≠ 0) (hnot : ¬ Steady s (.writeFile r))
    (he : execOp s (.writeFile r) = some t)
    (hmade : findRootEntry t.vfs.fat.bpb t.vfs.fat.disk (nameTo83 r.name) ≠ none)
    (hback : NamesLeadBack t.vfs.fat) (hu : execOp t (.list index phys) = some u) :
    ¬ ActsOnOwn u := by
  rcases map_eq_some_iff.mp he with ⟨⟨v', n⟩, hw, heq⟩
  subst heq
  rcases map_eq_some_iff.mp hu with ⟨⟨c, q⟩, hlist, heq⟩
  rcases map_eq_some_iff.mp hlist with ⟨c', hrefresh, hc⟩
  rcases hc with ⟨rfl, _⟩
  subst heq
  rcases cached_written h.ready h.cached hzero hw with ⟨hready, hcached⟩
  have hr := refreshNodes_spec (s := { s.vfs with fat := v' }) hready hcached hrefresh
  simp only [Steady, not_forall, not_or] at hnot
  rcases hnot with ⟨i, hnone, hslot, hdel, fd, d, j, hd, hfile, hji⟩
  rcases h.own fd d hd with ⟨j', _, hfile', hlt, hnum, _, _, _⟩
  have hjj : j' = j := some.inj (hfile'.symm.trans hfile)
  subst hjj
  rcases fileEntry_some.mp hnum with ⟨hreg, hcount⟩
  rcases findFreeRootEntry_some hslot with ⟨hilt, hifree, hpre⟩
  have hinot : ¬ IsFile s.vfs.fat i := by
    intro hi
    rcases hifree with h0 | h0
    · exact hi.2.1 i (Nat.le_refl _) h0
    · exact hi.2.2 (Or.inl h0)
  have hij : i < j' := by
    have hne : i ≠ j' := fun hij => hinot (hij ▸ hreg)
    omega
  rcases writeFile_dir hw with ⟨hb, _, hagree | ⟨i', c, _, hslot', hdir⟩⟩
  · -- With the old names in the directory the new one would not be found.
    refine absurd ?_ hmade
    cases hfind : findRootEntry v'.bpb v'.disk (nameTo83 r.name) with
    | none => rfl
    | some k =>
      rw [hb] at hfind
      have hk := (findRootEntry_some.mp hfind).1.1
      have hsame : ∀ x, x ≤ k → SameHead (readRootEntry s.vfs.fat.bpb s.vfs.fat.disk x)
          (readRootEntry s.vfs.fat.bpb v'.disk x) :=
        fun x hx => Or.inl (fun y h1 h2 => (hagree x (by omega) y h1 h2).symm)
      have hback := (findRootEntry_keeps hsame hfind).1
      rw [hnone] at hback
      cases hback
  have hii : i' = i := some.inj (hslot'.symm.trans hslot)
  subst hii
  have hend : (nameTo83 r.name).head? ≠ some 0x00 := fun h0 => nameTo83_ne_end hzero h0 rfl
  have hinew : IsFile v' i' := by
    rw [IsFile, hb]
    exact regular_created (nameTo83_length _) hend hdel hilt hpre hdir
  -- Another file, in front of the open one, now has its number.
  have hmore : d.node < Nat.count (IsFile v') j' := by
    rw [← hcount]
    exact count_lt_count (fun k hk => files_written hzero hw hk) hinot hinew hij
  rcases exists_of_lt_count hmore with ⟨k, hk, hknum⟩
  have hkj : k < j' := by
    by_contra hge
    have hmono := Nat.count_monotone (IsFile v') (Nat.not_lt.mp hge)
    omega
  rcases hr.fat with ⟨g, hg⟩
  rcases hr.shown d.node (Nat.lt_of_lt_of_le hlt hr.grows) with ⟨node, hnode, hshown⟩
  intro hown
  rcases hown fd d hd with ⟨node', j'', hnode', hfile'', hlook⟩
  rw [hnode, some.injEq] at hnode'
  rw [hfile, some.injEq] at hfile''
  subst hnode' hfile''
  simp only [hg] at hlook
  have hshown : v'.getFileName d.node 13 = some node.name := by
    rw [hg] at hshown
    exact hshown
  rw [getFileName_eq hready, fileEntry_some.mpr ⟨hk, hknum⟩, map_some,
    some.injEq] at hshown
  rw [← hshown] at hlook
  exact (findRootEntry_some.mp hlook).2.2 k hkj hk.listed (hback k hk).symm

/-- In every steady run every descriptor acts on the file it was opened for.
    A step that is not steady leads to one that does not: at once if it opens
    a name that is looked up as another file, and otherwise, where the names
    of the files lead back to them, with the next listing behind the new file. -/
theorem actsOnOwn_reachable {s : Session} (hs : (diskRuns.restrict Steady).Reachable s) :
    ActsOnOwn s ∧
      (∀ name fd phys t, diskRuns.allows s (.openName name fd phys) →
        ¬ Steady s (.openName name fd phys) →
        diskRuns.exec s (.openName name fd phys) = some t → t.table fd ≠ none → ¬ ActsOnOwn t) ∧
      ∀ r index phys t u, diskRuns.allows s (.writeFile r) → ¬ Steady s (.writeFile r) →
        diskRuns.exec s (.writeFile r) = some t →
        findRootEntry t.vfs.fat.bpb t.vfs.fat.disk (nameTo83 r.name) ≠ none →
        NamesLeadBack t.vfs.fat → diskRuns.exec t (.list index phys) = some u →
        ¬ ActsOnOwn u := by
  have h := inv_reachable hs
  refine ⟨h.actsOnOwn, fun name fd phys t ha hnot he hfd => ?_,
    fun r index phys t u ha hnot he hmade hback hu => ?_⟩
  · exact opened_other h ha hnot he hfd
  · exact created_shifts h ha hnot he hmade hback hu

/-! ### A directory with a deleted entry -/

/-- The small volume with the file `A` of three bytes in its second entry,
    behind a deleted one. -/
def gapDisk : Disk where
  sector := fun l =>
    if l = 2 then
      copy (copy (fun _ => 0) 0 (newEntry (0xE5 :: (nameTo83 [0x42]).tail)) 32) 32
        (filled (newEntry (nameTo83 [0x41])) 3 3) 32
    else sampleDisk.sector l
  writes := 0

/-- The volume is mounted, and nothing has been looked up yet. -/
def gapSession (h : Heap) : Session where
  vfs :=
    { fat := { sample h with disk := gapDisk }
      nodes := []
      fileNodes := fun _ => none
      nodeCount := 0 }
  table := fun _ => none

theorem start_gapSession (h : Heap) : diskRuns.start (gapSession h) := by
  have hm := mounted_sample h
  exact ⟨⟨hm.ready, hm.boot, hm.sectorSize, hm.fatSize, hm.numFats, hm.entries⟩, rfl, rfl,
    fun _ => rfl⟩

def openA : Op := .openName [0x41] 0 (fun _ => samplePhys)

/-- Opening `A` finds the second entry and makes its node the first one. -/
theorem opened_gapSession :
    ∃ h s, execOp (gapSession h) openA = some s ∧
      (diskRuns.restrict Steady).Reachable s ∧
      s.table 0 = some { node := 0, file := some 1 } := by
  have hrun : ((Heap.init samplePhys (fun _ => 0)).bind (fun h =>
      (execOp (gapSession h) openA).map (fun s => s.table 0))) =
        some (some { node := 0, file := some 1 }) := by
    decide
  have hfind : findRootEntry (Bpb.parse sampleBoot) gapDisk (nameTo83 [0x41]) = some 1 := by
    decide
  rcases bind_eq_some_iff.mp hrun with ⟨h, _, hrun⟩
  rcases map_eq_some_iff.mp hrun with ⟨s, hs, htable⟩
  have hnamed : fileNamed { sample h with disk := gapDisk } [0x41] = some 1 :=
    (by decide : (List.range (Bpb.parse sampleBoot).rootEntryCount).find? (fun j => decide
      (Regular (Bpb.parse sampleBoot).rootEntryCount
          (readRootEntry (Bpb.parse sampleBoot) gapDisk) j ∧
        nameFrom83 (nameOf (readRootEntry (Bpb.parse sampleBoot) gapDisk j)) = [0x41])) = some 1)
  have hsteady : Steady (gapSession h) openA := by
    intro j hj
    have h1 : (some 1 : Option Nat) = some j := hnamed.symm.trans hj
    rw [← h1]
    exact hfind
  exact ⟨h, s, hs, Machine.Reachable.step _ _ openA
    (Machine.Reachable.start _ (start_gapSession h)) ⟨rfl, hsteady⟩ hs, htable⟩

theorem actsOnOwn_gapSession :
    ∃ s, s.table 0 = some { node := 0, file := some 1 } ∧ ActsOnOwn s := by
  rcases opened_gapSession with ⟨_, s, _, hs, htable⟩
  exact ⟨s, htable, (actsOnOwn_reachable hs).1⟩

/-- `A` is opened, `B` is created in the deleted entry in front of it, and a
    listing gives the name `B` to the node of the descriptor. -/
theorem created_in_front : ∃ s, diskRuns.Reachable s ∧ ¬ ActsOnOwn s := by
  let create : Op := .writeFile (sampleRequest 0x42 (fun _ _ => .ok))
  let list : Op := .list 0 (fun _ => samplePhys)
  have hrun : ((Heap.init samplePhys (fun _ => 0)).bind (fun h =>
      (execOp (gapSession h) openA).bind (fun s => (execOp s create).bind (fun t =>
        (execOp t list).map (fun u => (u.table 0, u.vfs.nodes[0]?.map FileNode.name,
          findRootEntry u.vfs.fat.bpb u.vfs.fat.disk (nameTo83 [0x42]))))))) =
      some (some { node := 0, file := some 1 }, some [0x42], some 0) := by
    decide
  rcases bind_eq_some_iff.mp hrun with ⟨h, _, hrun⟩
  rcases bind_eq_some_iff.mp hrun with ⟨s, hs, hrun⟩
  rcases bind_eq_some_iff.mp hrun with ⟨t, ht, hrun⟩
  rcases map_eq_some_iff.mp hrun with ⟨u, hu, hresult⟩
  simp only [Prod.mk.injEq] at hresult
  rcases hresult with ⟨htable, hname, hfind⟩
  have hzero : ∀ c ∈ [(0x42 : UInt8)], c ≠ 0 := List.forall_mem_singleton.mpr (by decide)
  have hstart : diskRuns.Reachable (gapSession h) :=
    Machine.Reachable.start _ (start_gapSession h)
  have hreach : diskRuns.Reachable u := .step _ _ list (.step _ _ create
    (.step _ _ openA hstart rfl hs) hzero ht) trivial hu
  refine ⟨u, hreach, fun hown => ?_⟩
  rcases hown 0 _ htable with ⟨node, j, hnode, hfile, hlook⟩
  rcases map_eq_some_iff.mp hname with ⟨node', hnode', hname'⟩
  have hsame : node' = node := some.inj (hnode'.symm.trans hnode)
  rw [← hsame, hname', hfind] at hlook
  have hbad : (some 0 : Option Nat) = some 1 := hlook.trans hfile.symm
  exact absurd hbad (by decide)

end SysRust.Fat16Vfs
