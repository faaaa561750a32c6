import SysRust.Core.Fat16

/-!
# FAT16 Files in the File System

`fat16_vfs.rs`: the files of the root directory as nodes below `/disk`. A
node holds the name and the size of its file. Reading goes through a copy of
the whole file on the heap, and so does writing, except at offset zero, where
the data replaces the file.

The nodes are cached by the number of their file in the directory, and every
lookup and every listing brings the names and sizes up to date first. Nodes
are never freed, so a pointer to a node is its place in the order of
allocation. What a call stores in blocks of the heap is kept beside the heap,
as in the driver; `phys k` gives the answers of the page allocator to the
`k`-th allocation of a call.

A function returns `none` if it does not come back. Besides the reasons in
the driver this happens when the code runs past the end of a buffer: `kmalloc`
rounds the size up in 32 bits, which gives zero for sizes close to `2 ^ 32`,
and a write may end above `2 ^ 32`.

## Main definitions

* `FileNode`, `Fat16Vfs`: Nodes and their cache.
* `fat16VfsRead`, `fat16VfsWrite`: The functions of a file.
* `refreshNodes`, `fat16VfsReaddir`, `fat16VfsFinddir`: The functions of the
  directory.
-/

namespace SysRust.Fat16Vfs

def FAT16_VFS_MAX_FILES : Nat := 64

/-- The size of a `VfsNode`. -/
def VFS_NODE_SIZE : Nat := 1160

/-- The fields of a `VfsNode` that the functions below use. -/
structure FileNode where
  name : List UInt8
  size : Nat
deriving DecidableEq

end Fat16Vfs

/-- The driver, the nodes in the order of their allocation, `FILE_NODES` and
    `NODE_COUNT`. -/
structure Fat16Vfs where
  fat : Fat16
  nodes : List Fat16Vfs.FileNode
  fileNodes : Nat → Option Nat
  nodeCount : Nat

namespace Fat16Vfs

/-! ### Files -/

/-- Take a buffer that is then filled up to its size. -/
def takeBuffer (phys : Nat → Nat) (size : Nat) (v : Fat16) : Option (Fat16 × Nat) :=
  (Heap.kmalloc phys size v.heap).bind (fun r =>
    if r.2 ≠ 0 ∧ Heap.alignSize size < size then none else some ({ v with heap := r.1 }, r.2))

/-- The state, the code and the bytes read. -/
def fat16VfsRead (phys : Nat → Nat → Nat) (node : FileNode) (offset size : Nat) (v : Fat16) :
    Option (Fat16 × Int × List UInt8) :=
  if node.size = 0 then some (v, 0, [])
  else if offset ≥ node.size then some (v, 0, [])
  else (takeBuffer (phys 0) node.size v).bind (fun r =>
    if r.2 = 0 then some (r.1, -1, [])
    else (r.1.readFile (phys 1) node.name (window r.1.heap.mem r.2) node.size).bind (fun f =>
      (Heap.kfree r.2 f.1.heap).map (fun h =>
        if f.2.2 < 0 then ({ f.1 with heap := h }, -1, [])
        else if offset ≥ f.2.2.toNat then ({ f.1 with heap := h }, 0, [])
        else
          let sz := if size > f.2.2.toNat - offset then f.2.2.toNat - offset else size
          ({ f.1 with heap := h }, i32 sz, bytes f.2.1 offset sz))))

/-- The size of the file behind a write that does not start at zero. -/
def newSize (node : FileNode) (offset size : Nat) : Nat :=
  if u32 (offset + size) < node.size then node.size else u32 (offset + size)

/-- What `fat16_vfs_write` reads before it puts the new data over it. Whether
    the reading succeeds is not looked at. -/
def readExisting (phys : Nat → Nat) (node : FileNode) (fileBuf : Mem) (v : Fat16) :
    Option (Fat16 × Mem) :=
  if node.size > 0 then
    (v.readFile phys node.name fileBuf node.size).map (fun f => (f.1, f.2.1))
  else some (v, fileBuf)

/-- The state, the node and the code. -/
def fat16VfsWrite (phys : Nat → Nat → Nat) (ata : Nat → Nat → Fat16.WriteOutcome)
    (node : FileNode) (offset size : Nat) (buffer : Mem) (v : Fat16) :
    Option (Fat16 × FileNode × Int) :=
  if offset = 0 then
    (v.writeFile (phys 0) ata node.name buffer size).map (fun w =>
      if w.2 < 0 then (w.1, node, -1) else (w.1, { node with size := size }, i32 size))
  else (takeBuffer (phys 0) (newSize node offset size) v).bind (fun r =>
    if r.2 = 0 then some (r.1, node, -1)
    else (readExisting (phys 1) node
        (fill (window r.1.heap.mem r.2) 0 (newSize node offset size) 0) r.1).bind (fun f =>
      if newSize node offset size < offset + size then none
      else (f.1.writeFile (phys 2) ata node.name (copy f.2 offset buffer size)
          (newSize node offset size)).bind (fun w =>
        (Heap.kfree r.2 w.1.heap).map (fun h =>
          if w.2 < 0 then ({ w.1 with heap := h }, node, -1)
          else ({ w.1 with heap := h }, { node with size := newSize node offset size },
            i32 size)))))

/-! ### The directory -/

/-- The loop of `refresh_nodes` with `n` files to go, from the number `i` on.
    A name has at most twelve characters and fits into the node. -/
def refreshLoop (phys : Nat → Nat → Nat) : Nat → Nat → Fat16Vfs → Option Fat16Vfs
  | 0, i, s => some { s with nodeCount := i }
  | n + 1, i, s =>
    match s.fat.getFileName i 13 with
    | none => some { s with nodeCount := i }
    | some name =>
      match if i < s.nodeCount then s.fileNodes i else none with
      | some p => refreshLoop phys n (i + 1)
          { s with nodes := s.nodes.set p { name := name, size := s.fat.getFileSize i } }
      | none =>
        (Heap.kmalloc (phys i) VFS_NODE_SIZE s.fat.heap).bind (fun r =>
          if r.2 = 0 then
            some { s with fat := { s.fat with heap := r.1 }, nodeCount := i }
          else refreshLoop phys n (i + 1)
            { s with
              fat := { s.fat with heap := r.1 }
              nodes := s.nodes ++ [{ name := name, size := s.fat.getFileSize i }]
              fileNodes := Function.update s.fileNodes i (some s.nodes.length) })

def refreshNodes (phys : Nat → Nat → Nat) (s : Fat16Vfs) : Option Fat16Vfs :=
  refreshLoop phys (min s.fat.getFileCount FAT16_VFS_MAX_FILES) 0 s

/-- The node with a number, or a null pointer. -/
def fat16VfsReaddir (phys : Nat → Nat → Nat) (index : Nat) (s : Fat16Vfs) :
    Option (Fat16Vfs × Option Nat) :=
  (refreshNodes phys s).map (fun t =>
    (t, if index ≥ t.nodeCount then none else t.fileNodes index))

/-- Look for the name in the `n` nodes from the number `i` on. -/
def findNode (s : Fat16Vfs) (name : List UInt8) : Nat → Nat → Option (Option Nat)
  | 0, _ => some none
  | n + 1, i =>
    ((s.fileNodes i).bind (fun p => s.nodes[p]?.map (fun node => (p, node)))).bind (fun r =>
      if r.2.name = name then some (some r.1) else findNode s name n (i + 1))

def fat16VfsFinddir (phys : Nat → Nat → Nat) (name : List UInt8) (s : Fat16Vfs) :
    Option (Fat16Vfs × Option Nat) :=
  (refreshNodes phys s).bind (fun t =>
    (findNode t name t.nodeCount 0).map (fun p => (t, p)))

end SysRust.Fat16Vfs
