import SysRust.Core.Vfs
import SysRust.Lib.Memory
import SysRust.Lib.Word

/-!
# Open Files

The contents of files and the descriptors they are used through: the reading
and writing functions of `ramfs.rs`, `initrd.rs` and `devfs.rs`, the
descriptor table of `vfs.rs`, and the system calls for them. The tree that
paths are looked up in is the one of `Core.Vfs`; what a node holds is kept
next to it, by address.

A buffer is a memory from its first byte on. `kmalloc` is a parameter of a
write: `some m` is a block that holds `m` so far, `none` is a null pointer.
Reading returns the code and the bytes that were put into the caller's
buffer.

A function returns `none` if it does not come back: the loop that doubles a
capacity never ends once the doubling has wrapped around to zero, and the
keyboard is waited for until a key comes.

## Main definitions

* `RamfsFileData`, `FileNode`, `FdEntry`, `Files`: The state.
* `newFileData`, `ramfsRead`, `ramfsWrite`: Files in memory.
* `read`, `write`: The dispatch to a node's functions.
* `vfsOpen`, `vfsFdRead`, `vfsFdWrite`, `vfsLseek`, `vfsClose`: Descriptors.
* `sysOpen`, `sysRead`, `sysWrite`, `sysLseek`, `sysClose`: System calls.
-/

namespace SysRust.Files

def MAX_OPEN_FILES : Nat := 32

structure RamfsFileData where
  data : Mem
  size : Nat
  capacity : Nat

/-- Where a node's bytes come from, by its `read_fn` and `write_fn`. -/
inductive Backing where
  | directory
  | ramfs (fd : RamfsFileData)
  | initrd (data : Mem) (size : Nat)
  | devNull
  | devZero
  | devConsole

/-- The fields of a `VfsNode` that reading and writing use. -/
structure FileNode where
  size : Nat
  backing : Backing

structure FdEntry where
  node : Ptr
  offset : Nat
  inUse : Bool

/-- An entry that is not in use. -/
def FdEntry.empty : FdEntry where
  node := 0
  offset := 0
  inUse := false

end Files

/-- The tree, the contents of its nodes, the descriptor table, the keys typed
    and the characters shown. -/
structure Files where
  vfs : Vfs
  nodes : Ptr → Files.FileNode
  table : Nat → Files.FdEntry
  keys : List UInt8
  screen : List UInt8

namespace Files

/-! ### Files in memory -/

/-- The file data that `create_file_in` sets up, in a block of 256 bytes. -/
def newFileData (block : Mem) : RamfsFileData where
  data := fill block 0 256 0
  size := 0
  capacity := 256

/-- `ramfs_read` and `initrd_vfs_read` read a buffer in the same way. -/
def readBuffer (data : Mem) (fileSize offset size : Nat) : Int × List UInt8 :=
  if offset ≥ fileSize then (0, [])
  else
    -- The guard against overflow in `offset + sz`.
    let sz := if size > 0xFFFFFFFF - offset then fileSize - offset else size
    let sz := if u32 (offset + sz) > fileSize then fileSize - offset else sz
    (i32 sz, bytes data offset sz)

def ramfsRead (fd : RamfsFileData) (offset size : Nat) : Int × List UInt8 :=
  readBuffer fd.data fd.size offset size

def initrdVfsRead (data : Mem) (fileSize offset size : Nat) : Int × List UInt8 :=
  readBuffer data fileSize offset size

/-- The loop that doubles the capacity, for at most `n` rounds. After 32
    rounds the value has wrapped around to zero and stays there. -/
def growCap (needed : Nat) : Nat → Nat → Option Nat
  | 0, cap => if cap < needed then none else some cap
  | n + 1, cap => if cap < needed then growCap needed n (u32 (cap * 2)) else some cap

/-- The capacity that a write asks the heap for. -/
def newCapacity (needed capacity : Nat) : Option Nat :=
  growCap needed 32 (if capacity < 256 then 256 else capacity)

/-- The end of `ramfs_write`, with room for the bytes. -/
def putBytes (fd : RamfsFileData) (offset size : Nat) (src : Mem) : RamfsFileData :=
  { fd with
    data := copy fd.data offset src size
    size := if offset + size > fd.size then offset + size else fd.size }

/-- The new file data, or `some none` for a return of `-1` with nothing
    changed. On success the return value is the size. -/
def ramfsWrite (heap : Option Mem) (fd : RamfsFileData) (offset size : Nat) (src : Mem) :
    Option (Option RamfsFileData) :=
  if size > 0xFFFFFFFF - offset then some none
  else if offset + size > fd.capacity then
    (newCapacity (offset + size) fd.capacity).map (fun newCap =>
      heap.map (fun block =>
        let newBuf := copy (fill block 0 newCap 0) 0 fd.data fd.size
        putBytes { fd with data := newBuf, capacity := newCap } offset size src))
  else some (some (putBytes fd offset size src))

/-! ### Devices -/

/-- The loop of `console_read`, with `k` characters to go: the keys left and
    the characters read. It ends at a newline. -/
def consoleLoop : Nat → List UInt8 → Option (List UInt8 × List UInt8)
  | 0, keys => some (keys, [])
  | _ + 1, [] => none
  | k + 1, c :: keys =>
    if c = 10 then some (keys, [c])
    else (consoleLoop k keys).map (fun r => (r.1, c :: r.2))

/-! ### Dispatch -/

/-- `vfs::read`: the state, the code and the bytes read. -/
def read (s : Files) (node : Ptr) (offset size : Nat) : Option (Files × Int × List UInt8) :=
  if node = 0 then some (s, -1, [])
  else
    match (s.nodes node).backing with
    | .directory => some (s, -1, [])
    | .ramfs fd => some (s, ramfsRead fd offset size)
    | .initrd data fileSize => some (s, initrdVfsRead data fileSize offset size)
    | .devNull => some (s, 0, [])
    | .devZero => some (s, i32 size, List.replicate size 0)
    | .devConsole =>
      (consoleLoop size s.keys).map (fun r =>
        ({ s with keys := r.1 }, i32 r.2.length, r.2))

/-- The node's own size follows the file's. -/
def setFile (s : Files) (node : Ptr) (fd : RamfsFileData) : Files :=
  { s with nodes := Function.update s.nodes node { size := fd.size, backing := .ramfs fd } }

/-- `vfs::write`: the state and the code. -/
def write (s : Files) (node : Ptr) (offset size : Nat) (src : Mem) (heap : Option Mem) :
    Option (Files × Int) :=
  if node = 0 then some (s, -1)
  else
    match (s.nodes node).backing with
    | .directory => some (s, -1)
    | .ramfs fd =>
      (ramfsWrite heap fd offset size src).map (fun r =>
        match r with
        | none => (s, -1)
        | some fd => (setFile s node fd, i32 size))
    | .initrd _ _ => some (s, -1)
    | .devNull => some (s, i32 size)
    | .devZero => some (s, i32 size)
    | .devConsole => some ({ s with screen := s.screen ++ bytes src 0 size }, i32 size)

/-! ### Descriptors -/

def setEntry (s : Files) (i : Nat) (e : FdEntry) : Files :=
  { s with table := Function.update s.table i e }

/-- The first entry that is not in use. -/
def freeSlot (s : Files) : Option Nat :=
  (List.range MAX_OPEN_FILES).find? (fun i => (s.table i).inUse = false)

def vfsOpen (path : Option CStr) (s : Files) : Option (Files × Int) :=
  (Vfs.resolvePath s.vfs path).map (fun node =>
    if node = 0 then (s, -1)
    else
      match freeSlot s with
      | some i => (setEntry s i { node := node, offset := 0, inUse := true }, i)
      | none => (s, -1))

/-- The check at the start of the descriptor functions. -/
def BadFd (s : Files) (fd : Int) : Prop :=
  fd < 0 ∨ fd ≥ MAX_OPEN_FILES ∨ (s.table fd.toNat).inUse = false

instance (s : Files) (fd : Int) : Decidable (BadFd s fd) := inferInstanceAs (Decidable (_ ∨ _ ∨ _))

/-- The offset moves on by the bytes transferred, if there were any. -/
def advance (s : Files) (i : Nat) (code : Int) : Files :=
  if code > 0 then
    setEntry s i { s.table i with offset := u32 ((s.table i).offset + code.toNat) }
  else s

def vfsFdRead (fd : Int) (size : Nat) (s : Files) : Option (Files × Int × List UInt8) :=
  if BadFd s fd then some (s, -1, [])
  else
    (read s (s.table fd.toNat).node (s.table fd.toNat).offset size).map (fun r =>
      (advance r.1 fd.toNat r.2.1, r.2))

def vfsFdWrite (fd : Int) (size : Nat) (src : Mem) (heap : Option Mem) (s : Files) :
    Option (Files × Int) :=
  if BadFd s fd then some (s, -1)
  else
    (write s (s.table fd.toNat).node (s.table fd.toNat).offset size src heap).map (fun r =>
      (advance r.1 fd.toNat r.2, r.2))

def vfsClose (fd : Int) (s : Files) : Files :=
  if fd < 0 ∨ fd ≥ MAX_OPEN_FILES then s else setEntry s fd.toNat FdEntry.empty

/-- The offset that `vfs_lseek` computes, in 64 bits. -/
def seekTarget (s : Files) (fd offset : Int) (whence : Nat) : Option Int :=
  match whence with
  | 0 => some offset
  | 1 => some (i64 ((s.table fd.toNat).offset + offset))
  | 2 => some (i64 ((s.nodes (s.table fd.toNat).node).size + offset))
  | _ => none

def vfsLseek (fd offset : Int) (whence : Nat) (s : Files) : Files × Int :=
  if BadFd s fd then (s, -1)
  else if (s.table fd.toNat).node = 0 then (s, -1)
  else
    match seekTarget s fd offset whence with
    | none => (s, -1)
    | some newOff =>
      if newOff < 0 then (s, -1)
      else
        (setEntry s fd.toNat { s.table fd.toNat with offset := u32 newOff.toNat }, newOff)

/-! ### System calls -/

/-- Descriptor 0 is the keyboard. -/
def sysRead (fd len : Nat) (s : Files) : Option (Files × Nat × List UInt8) :=
  if fd = 0 then
    if len = 0 then some (s, 0, [])
    else
      match s.keys with
      | [] => none
      | c :: keys => some ({ s with keys := keys }, 1, [c])
  else (vfsFdRead (i32 fd) (u32 len) s).map (fun r => (r.1, asU64 r.2.1, r.2.2))

/-- Descriptors 1 and 2 are the screen. -/
def sysWrite (fd len : Nat) (src : Mem) (heap : Option Mem) (s : Files) :
    Option (Files × Nat) :=
  if fd = 1 ∨ fd = 2 then some ({ s with screen := s.screen ++ bytes src 0 len }, len)
  else (vfsFdWrite (i32 fd) (u32 len) src heap s).map (fun r => (r.1, asU64 r.2))

def sysOpen (path : Option CStr) (s : Files) : Option (Files × Nat) :=
  (vfsOpen path s).map (fun r => (r.1, asU64 r.2))

def sysClose (fd : Nat) (s : Files) : Files × Nat := (vfsClose (i32 fd) s, 0)

/-- `offset as i64` reads the 64 bits as a signed value. -/
def sysLseek (fd offset whence : Nat) (s : Files) : Files × Nat :=
  let r := vfsLseek (i32 fd) (i64 offset) (u32 whence) s
  (r.1, asU64 r.2)

end SysRust.Files
