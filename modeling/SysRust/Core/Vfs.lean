import Mathlib.Logic.Function.Basic
import Mathlib.Data.List.Basic

/-!
# The Virtual File System

The tree of `VfsNode`s: `vfs.rs`, the creating functions of `ramfs.rs`, the
start-up of `initrd.rs` and `devfs.rs`, and `sys_rename`. Nodes are heap
blocks that point to each other, so the model is a store of nodes by address
with the same fields: an array of child pointers with a count, and a parent
pointer.

A function of the model returns `none` if the code would read a node that is
not live, or hand the heap a pointer that did not come from it. The latter
is what `unlink` does with a file of the initial ramdisk, whose private data
starts with a name and not with a pointer.

`kmalloc` is a parameter: `supply` lists what the next calls return, with
`0`, or the end of the list, for a failure. C strings are lists of bytes
without the terminator, and `none` is a null pointer.

## Main definitions

* `VfsNode`, `Vfs`: A node, and the store with `VFS_ROOT`.
* `finddir`, `addChild`: The operations on one directory.
* `resolvePath`, `mkdir`, `mkdirP`, `unlink`, `unlinkPath`: The interface.
* `createFileIn`, `createDirIn`: Creation of ramfs nodes.
* `sysRename`: Renaming and moving.
* `init`: `vfs::init` with the initial ramdisk and the device files.
-/

namespace SysRust

/-- An address; `0` is the null pointer. -/
abbrev Ptr := Nat

/-- A C string without its terminator. -/
abbrev CStr := List UInt8

namespace Vfs

def VFS_FILE : Nat := 0x01
def VFS_DIRECTORY : Nat := 0x02
def VFS_DEVICE : Nat := 0x04
def VFS_MAX_CHILDREN : Nat := 128

def SLASH : UInt8 := 0x2F

/-- The lookup functions that directories come with. -/
inductive FinddirFn where
  | default
  | ramfs
  | devfs
deriving DecidableEq

/-- What `private_data` points to. -/
inductive PrivateData where
  | null
  | ramfsFile
  | initrdFile
deriving DecidableEq

structure VfsNode where
  name : CStr
  flags : Nat
  finddirFn : Option FinddirFn
  privateData : PrivateData
  children : Nat → Ptr
  numChildren : Nat
  parent : Ptr

/-- A node that has been zeroed. -/
def VfsNode.zeroed : VfsNode where
  name := []
  flags := 0
  finddirFn := none
  privateData := .null
  children := fun _ => 0
  numChildren := 0
  parent := 0

/-- A name field holds at most 63 bytes. -/
def copyName (name : CStr) : CStr := name.take 63

end Vfs

/-- The live nodes and `VFS_ROOT`. -/
structure Vfs where
  root : Ptr
  nodes : Ptr → Option Vfs.VfsNode

namespace Vfs

def setNode (s : Vfs) (p : Ptr) (n : VfsNode) : Vfs :=
  { s with nodes := Function.update s.nodes p (some n) }

/-- The effect of `kfree` on a node. -/
def freeNode (s : Vfs) (p : Ptr) : Vfs :=
  { s with nodes := Function.update s.nodes p none }

/-- The pointer `kmalloc` returns, and what later calls return. -/
def kmalloc : List Ptr → Ptr × List Ptr
  | [] => (0, [])
  | p :: rest => (p, rest)

/-! ### One directory -/

/-- The loop of the lookup functions, with `k` children to go from slot `i`. -/
def findLoop (s : Vfs) (dir : VfsNode) (name : CStr) : Nat → Nat → Option Ptr
  | 0, _ => some 0
  | k + 1, i =>
    (s.nodes (dir.children i)).bind (fun child =>
      if child.name = name then some (dir.children i) else findLoop s dir name k (i + 1))

/-- The three lookup functions differ in the test of the flags only. -/
def finddirWith (f : FinddirFn) (s : Vfs) (dir : VfsNode) (name : CStr) : Option Ptr :=
  if f ≠ .devfs ∧ dir.flags &&& VFS_DIRECTORY = 0 then some 0
  else findLoop s dir name dir.numChildren 0

def finddir (s : Vfs) (dir : Ptr) (name : CStr) : Option Ptr :=
  if dir = 0 then some 0
  else
    (s.nodes dir).bind (fun d =>
      match d.finddirFn with
      | some f => finddirWith f s d name
      | none => some 0)

/-- The node with one child more. -/
def VfsNode.push (n : VfsNode) (child : Ptr) : VfsNode :=
  { n with
    children := Function.update n.children n.numChildren child
    numChildren := n.numChildren + 1 }

/-- The result is the state and the code returned. -/
def addChild (parent child : Ptr) (s : Vfs) : Option (Vfs × Int) :=
  if parent = 0 ∨ child = 0 then some (s, -1)
  else
    (s.nodes parent).bind (fun p =>
      if p.flags &&& VFS_DIRECTORY = 0 then some (s, -1)
      else if p.numChildren ≥ VFS_MAX_CHILDREN then some (s, -1)
      else
        let s1 := setNode s parent (p.push child)
        (s1.nodes child).map (fun c => (setNode s1 child { c with parent := parent }, 0)))

/-- The loop that closes the gap, with `k` slots to go from slot `i`. -/
def shiftDown : Nat → Nat → (Nat → Ptr) → (Nat → Ptr)
  | 0, _, children => children
  | k + 1, i, children =>
    shiftDown k (i + 1) (Function.update children i (children (i + 1)))

/-- The node without the child in slot `idx`. -/
def VfsNode.removeSlot (n : VfsNode) (idx : Nat) : VfsNode :=
  let last := n.numChildren - 1
  { n with
    children := Function.update (shiftDown (last - idx) idx n.children) last 0
    numChildren := n.numChildren - 1 }

/-! ### Creating nodes -/

/-- What a creating function leaves: the state, the node returned (null on
    failure) and the unused supply. -/
structure Made where
  vfs : Vfs
  ptr : Ptr
  supply : List Ptr

def dirNode (f : FinddirFn) (name : CStr) : VfsNode :=
  { VfsNode.zeroed with name := copyName name, flags := VFS_DIRECTORY, finddirFn := some f }

def makeDir (name : CStr) (supply : List Ptr) (s : Vfs) : Made :=
  let (dir, rest) := kmalloc supply
  if dir = 0 then { vfs := s, ptr := 0, supply := rest }
  else { vfs := setNode s dir (dirNode .default name), ptr := dir, supply := rest }

/-- Hang a new node into a directory, or free it again. -/
def hang (parent : Ptr) (m : Made) : Option Made :=
  (addChild parent m.ptr m.vfs).map (fun r =>
    if r.2 < 0 then { vfs := freeNode r.1 m.ptr, ptr := 0, supply := m.supply }
    else { m with vfs := r.1 })

def mkdir (parent : Ptr) (name : Option CStr) (supply : List Ptr) (s : Vfs) : Option Made :=
  match name with
  | none => some { vfs := s, ptr := 0, supply := supply }
  | some name =>
    if parent = 0 then some { vfs := s, ptr := 0, supply := supply }
    else
      (s.nodes parent).bind (fun p =>
        if p.flags &&& VFS_DIRECTORY = 0 then some { vfs := s, ptr := 0, supply := supply }
        else
          (finddir s parent name).bind (fun existing =>
            if existing ≠ 0 then
              (s.nodes existing).map (fun e =>
                { vfs := s
                  ptr := if e.flags &&& VFS_DIRECTORY ≠ 0 then existing else 0
                  supply := supply })
            else
              let dir := makeDir name supply s
              if dir.ptr = 0 then some dir else hang parent dir))

def fileNode (name : CStr) : VfsNode :=
  { VfsNode.zeroed with name := copyName name, flags := VFS_FILE, privateData := .ramfsFile }

/-- A file takes three allocations: the node, its `RamfsFileData`, and a
    first buffer. -/
def createFileIn (parent : Ptr) (name : Option CStr) (supply : List Ptr) (s : Vfs) :
    Option Made :=
  match name with
  | none => some { vfs := s, ptr := 0, supply := supply }
  | some name =>
    if parent = 0 then some { vfs := s, ptr := 0, supply := supply }
    else
      (finddir s parent name).bind (fun existing =>
        if existing ≠ 0 then some { vfs := s, ptr := existing, supply := supply }
        else
          let (node, rest) := kmalloc supply
          if node = 0 then some { vfs := s, ptr := 0, supply := rest }
          else
            let (fd, rest) := kmalloc rest
            if fd = 0 then some { vfs := s, ptr := 0, supply := rest }
            else
              let (dataBuf, rest) := kmalloc rest
              if dataBuf = 0 then some { vfs := s, ptr := 0, supply := rest }
              else hang parent
                { vfs := setNode s node (fileNode name), ptr := node, supply := rest })

def createDirIn (parent : Ptr) (name : Option CStr) (supply : List Ptr) (s : Vfs) :
    Option Made :=
  match name with
  | none => some { vfs := s, ptr := 0, supply := supply }
  | some name =>
    if parent = 0 then some { vfs := s, ptr := 0, supply := supply }
    else
      (finddir s parent name).bind (fun existing =>
        if existing ≠ 0 then
          (s.nodes existing).map (fun e =>
            { vfs := s
              ptr := if e.flags &&& VFS_DIRECTORY ≠ 0 then existing else 0
              supply := supply })
        else
          let (node, rest) := kmalloc supply
          if node = 0 then some { vfs := s, ptr := 0, supply := rest }
          else hang parent
            { vfs := setNode s node (dirNode .ramfs name), ptr := node, supply := rest })

/-! ### Paths -/

/-- The next component of a path, cut to 63 bytes. -/
def component (p : CStr) : CStr := (p.takeWhile (fun b => b ≠ SLASH)).take 63

/-- The path after its next component and the slashes that follow. -/
def afterComponent (p : CStr) : CStr :=
  (p.dropWhile (fun b => b ≠ SLASH)).dropWhile (fun b => b = SLASH)

theorem length_dropWhile_le (f : UInt8 → Bool) (p : CStr) : (p.dropWhile f).length ≤ p.length :=
  (List.dropWhile_suffix f).length_le

theorem afterComponent_lt {p : CStr} (h : p ≠ []) : (afterComponent p).length < p.length := by
  cases p with
  | nil => exact absurd rfl h
  | cons b rest =>
    unfold afterComponent
    have hle := length_dropWhile_le (fun b => b = SLASH)
      ((b :: rest).dropWhile (fun b => b ≠ SLASH))
    by_cases hb : b = SLASH
    · rw [List.dropWhile_cons_of_neg (by simp only [hb, ne_eq, not_true_eq_false, decide_false,
        Bool.false_eq_true, not_false_eq_true]), List.dropWhile_cons_of_pos (by
        simp only [hb, decide_true])]
      exact Nat.lt_succ_of_le (length_dropWhile_le _ rest)
    · rw [List.dropWhile_cons_of_pos (by simp only [ne_eq, hb, not_false_eq_true, decide_true])]
        at hle ⊢
      exact Nat.lt_succ_of_le (Nat.le_trans hle (length_dropWhile_le _ rest))

/-- The loop of `resolve_path`. -/
def resolveFrom (s : Vfs) (cur : Ptr) (p : CStr) : Option Ptr :=
  if _hp : p = [] ∨ cur = 0 then some cur
  else (finddir s cur (component p)).bind (fun next => resolveFrom s next (afterComponent p))
termination_by p.length
decreasing_by exact afterComponent_lt (fun hp => _hp (Or.inl hp))

def resolvePath (s : Vfs) (path : Option CStr) : Option Ptr :=
  match path with
  | none => some 0
  | some p => resolveFrom s s.root (p.dropWhile (fun b => b = SLASH))

/-- The loop of `mkdir_p`. -/
def mkdirFrom (cur : Ptr) (p : CStr) (supply : List Ptr) (s : Vfs) : Option Made :=
  if _hp : p = [] ∨ cur = 0 then some { vfs := s, ptr := cur, supply := supply }
  else
    (finddir s cur (component p)).bind (fun child =>
      if child = 0 then
        (mkdir cur (some (component p)) supply s).bind (fun m =>
          mkdirFrom m.ptr (afterComponent p) m.supply m.vfs)
      else mkdirFrom child (afterComponent p) supply s)
termination_by p.length
decreasing_by
  · exact afterComponent_lt (fun hp => _hp (Or.inl hp))
  · exact afterComponent_lt (fun hp => _hp (Or.inl hp))

def mkdirP (path : Option CStr) (supply : List Ptr) (s : Vfs) : Option Made :=
  match path with
  | none => some { vfs := s, ptr := 0, supply := supply }
  | some p => mkdirFrom s.root (p.dropWhile (fun b => b = SLASH)) supply s

/-- The index of the last slash. -/
def lastSlash (p : CStr) : Option Nat :=
  (List.range p.length).foldl (fun last i => if p.getD i 0 = SLASH then some i else last) none

/-- The directory and the name that a path stands for, as `unlink_path` and
    `sys_rename` find them. They differ in the codes for a parent path that
    is too long or does not exist. -/
def splitPath (tooLong notFound : Int) (s : Vfs) (path : CStr) :
    Option (Except Int (Ptr × CStr)) :=
  match lastSlash path with
  | none => some (.ok (s.root, path))
  | some 0 => some (.ok (s.root, path.drop 1))
  | some (k + 1) =>
    if k + 1 ≥ 255 then some (.error tooLong)
    else
      (resolvePath s (some (path.take (k + 1)))).map (fun parent =>
        if parent = 0 then .error notFound else .ok (parent, path.drop (k + 2)))

/-! ### Removing nodes -/

/-- The loop of `unlink` that looks for the name, with `k` children to go
    from slot `i`. -/
def slotNamed (s : Vfs) (dir : VfsNode) (name : CStr) : Nat → Nat → Option (Option Nat)
  | 0, _ => some none
  | k + 1, i =>
    if dir.children i = 0 then slotNamed s dir name k (i + 1)
    else
      (s.nodes (dir.children i)).bind (fun child =>
        if child.name = name then some (some i) else slotNamed s dir name k (i + 1))

def unlink (parent : Ptr) (name : CStr) (s : Vfs) : Option (Vfs × Int) :=
  if parent = 0 then some (s, -1)
  else
    (s.nodes parent).bind (fun p =>
      if p.flags &&& VFS_DIRECTORY = 0 then some (s, -1)
      else
        (slotNamed s p name p.numChildren 0).bind (fun found =>
          match found with
          | none => some (s, -1)
          | some idx =>
            (s.nodes (p.children idx)).bind (fun child =>
              -- The first bytes of an `InitrdFile` are no heap pointer.
              if child.privateData = .initrdFile then none
              else
                let s1 := freeNode s (p.children idx)
                (s1.nodes parent).map (fun p =>
                  (setNode s1 parent (p.removeSlot idx), 0)))))

def unlinkPath (path : Option CStr) (s : Vfs) : Option (Vfs × Int) :=
  match path with
  | none => some (s, -1)
  | some path =>
    if path = [] then some (s, -1)
    else
      (splitPath (-1) (-1) s path).bind (fun r =>
        match r with
        | .error e => some (s, e)
        | .ok (parent, name) => if name = [] then some (s, -1) else unlink parent name s)

/-! ### Renaming -/

/-- The slot that holds a pointer. -/
def slotOf (n : VfsNode) (p : Ptr) : Option Nat :=
  (List.range n.numChildren).find? (fun i => n.children i = p)

/-- Take the node out of its old directory, rename it and add it to the new
    one; if that has no room, it goes back. -/
def moveNode (oldNode oldParent newParent : Ptr) (newName : CStr) (s : Vfs) :
    Option (Vfs × Int) :=
  (s.nodes oldParent).bind (fun p =>
    match slotOf p oldNode with
    | none => some (s, -2)
    | some idx =>
      let s1 := setNode s oldParent (p.removeSlot idx)
      (s1.nodes oldNode).bind (fun n =>
        let s2 := setNode s1 oldNode { n with name := copyName newName }
        (addChild newParent oldNode s2).bind (fun r =>
          if r.2 < 0 then (addChild oldParent oldNode r.1).map (fun q => (q.1, -28))
          else some (r.1, 0))))

def sysRename (oldPath newPath : Option CStr) (s : Vfs) : Option (Vfs × Int) :=
  match oldPath, newPath with
  | some oldPath, some newPath =>
    (resolvePath s (some oldPath)).bind (fun oldNode =>
      if oldNode = 0 then some (s, -2)
      else
        (s.nodes oldNode).bind (fun n =>
          if n.parent = 0 then some (s, -1)
          else if newPath = [] then some (s, -22)
          else
            (splitPath (-36) (-2) s newPath).bind (fun r =>
              match r with
              | .error e => some (s, e)
              | .ok (newParent, newName) =>
                if newName = [] then some (s, -22)
                else moveNode oldNode n.parent newParent newName s)))
  | _, _ => some (s, -14)

/-! ### Start-up -/

def initrdNode (name : CStr) : VfsNode :=
  { VfsNode.zeroed with name := copyName name, flags := VFS_FILE, privateData := .initrdFile }

/-- A node for every file of the initial ramdisk. -/
def initrdInitVfs (root : Ptr) : List CStr → List Ptr → Vfs → Option (Vfs × List Ptr)
  | [], supply, s => some (s, supply)
  | name :: names, supply, s =>
    let (node, rest) := kmalloc supply
    if node = 0 then initrdInitVfs root names rest s
    else
      (addChild root node (setNode s node (initrdNode name))).bind (fun r =>
        initrdInitVfs root names rest r.1)

def deviceNode (name : CStr) : VfsNode :=
  { VfsNode.zeroed with name := copyName name, flags := VFS_FILE ||| VFS_DEVICE }

def makeDevice (name : CStr) (supply : List Ptr) (s : Vfs) : Made :=
  let (node, rest) := kmalloc supply
  if node = 0 then { vfs := s, ptr := 0, supply := rest }
  else { vfs := setNode s node (deviceNode name), ptr := node, supply := rest }

def nameDev : CStr := [100, 101, 118]
def nameNull : CStr := [110, 117, 108, 108]
def nameZero : CStr := [122, 101, 114, 111]
def nameConsole : CStr := [99, 111, 110, 115, 111, 108, 101]

/-- `/dev` with its three devices. -/
def devfsInit (root : Ptr) (supply : List Ptr) (s : Vfs) : Option Vfs :=
  let (devDir, rest) := kmalloc supply
  if devDir = 0 then some s
  else
    let s0 := setNode s devDir (dirNode .devfs nameDev)
    let m1 := makeDevice nameNull rest s0
    let m2 := makeDevice nameZero m1.supply m1.vfs
    let m3 := makeDevice nameConsole m2.supply m2.vfs
    (addChild devDir m1.ptr m3.vfs).bind (fun r1 =>
      (addChild devDir m2.ptr r1.1).bind (fun r2 =>
        (addChild devDir m3.ptr r2.1).bind (fun r3 =>
          (addChild root devDir r3.1).map Prod.fst)))

/-- `vfs::init` on a heap without nodes, with the names of the ramdisk's
    files. -/
def init (names : List CStr) (supply : List Ptr) : Option Vfs :=
  let m := makeDir [SLASH] supply { root := 0, nodes := fun _ => none }
  let s := { m.vfs with root := m.ptr }
  if m.ptr = 0 then some s
  else (initrdInitVfs m.ptr names m.supply s).bind (fun r => devfsInit m.ptr r.2 r.1)

end Vfs

end SysRust
