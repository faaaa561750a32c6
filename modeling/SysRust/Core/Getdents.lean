import SysRust.Core.Files

/-!
# Directory Entries

`sys_getdents64` of `syscall.rs`. The offset of the descriptor counts the
children that have been reported. A record is written into a zeroed area of
the caller's buffer, one behind the other, so the buffer is the list of the
bytes written. `ramfs_readdir` is the same as `default_readdir`, `devfs_readdir`
does without the flag, and the children of `/disk` are the nodes of its cache.

## Main definitions

* `Child`, `DirNode`, `Dirs`: The nodes as the call sees them.
* `reclen`, `record`, `records`: The record of a child.
* `fillBuf`: The loop.
* `sysGetdents64`: The system call.
-/

namespace SysRust.Files

open Vfs

/-- What the call uses of a child. The name field holds 63 bytes and the
    terminator. -/
structure Child where
  name : CStr
  flags : Nat
  inode : Nat
  short : name.length ≤ 63
  text : 0 ∉ name

structure DirNode where
  flags : Nat
  children : List Child
  room : children.length ≤ VFS_MAX_CHILDREN

structure Dirs where
  nodes : Ptr → DirNode
  table : Nat → FdEntry

def defaultReaddir (dir : DirNode) (index : Nat) : Option Child :=
  if dir.flags &&& VFS_DIRECTORY = 0 then none else dir.children[index]?

/-- The length of a record, rounded up to a multiple of eight. -/
def reclen (c : Child) : Nat := (8 + 8 + 2 + 1 + c.name.length + 1 + 7) / 8 * 8

def leBytes (n v : Nat) : List UInt8 := (List.range n).map (fun i => UInt8.ofNat (v / 256 ^ i))

/-- `d_ino`, `d_off`, `d_reclen`, `d_type` and `d_name` with its padding. -/
def record (c : Child) (idx : Nat) : List UInt8 :=
  leBytes 8 (if c.inode ≠ 0 then c.inode else idx + 1) ++ leBytes 8 (idx + 1) ++
    leBytes 2 (reclen c) ++ [if c.flags &&& VFS_DIRECTORY ≠ 0 then 4 else 8] ++ c.name ++
    List.replicate (reclen c - 19 - c.name.length) 0

/-- The records of children with their indices. -/
def records (l : List (Child × Nat)) : List UInt8 := l.flatMap (fun x => record x.1 x.2)

/-- The loop from child `idx` on, of which there are `n`, with `pos` bytes
    written: the children whose records it writes. -/
def fillBuf (dir : DirNode) (count : Nat) : Nat → Nat → Nat → List (Child × Nat)
  | 0, _, _ => []
  | n + 1, idx, pos =>
    match defaultReaddir dir idx with
    | none => []
    | some child =>
      if pos + reclen child > count then []
      else (child, idx) :: fillBuf dir count n (idx + 1) (pos + reclen child)

/-- The state, what is returned and the bytes written. -/
def sysGetdents64 (fd buf count : Nat) (s : Dirs) : Dirs × Nat × List UInt8 :=
  if buf = 0 ∨ count = 0 then (s, asU64 (-14), [])
  else if fd ≥ MAX_OPEN_FILES ∨ (s.table fd).inUse = false then (s, asU64 (-9), [])
  else if (s.table fd).node = 0 then (s, asU64 (-9), [])
  else
    let dir := s.nodes (s.table fd).node
    if dir.flags &&& VFS_DIRECTORY = 0 then (s, asU64 (-20), [])
    else
      let startIdx := (s.table fd).offset
      let l := fillBuf dir count (dir.children.length - startIdx) startIdx 0
      let file := { s.table fd with offset := startIdx + l.length }
      let t := { s with table := Function.update s.table fd file }
      if (records l).length = 0 ∧ (defaultReaddir dir startIdx).isSome then (t, asU64 (-22), [])
      else (t, (records l).length, records l)

end SysRust.Files
