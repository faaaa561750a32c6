import SysRust.Core.Files

/-!
# The Initial Ramdisk

The image of the initial ramdisk: how `tools/mkinitrd.rs` writes it on the
build machine, and how `initrd.rs` finds the files in it at boot and shows
them as nodes of the virtual file system.

The image is a count and then, for every file, a name of 64 bytes, a size of
four bytes and the contents. `init` copies names and sizes into the table
`FILES` and keeps a pointer to the contents, which stay where the boot loader
put them. `initrdVfsRead` of `Core.Files` is the reading function.

The message that `init` prints is left out.

## Main definitions

* `HostFile`, `mkinitrd`: The files and the image on the build machine.
* `InitrdFile`, `Initrd`: The table.
* `MultibootInfo`: What the boot loader hands over.
* `init`, `getCount`, `getFile`, `find`: The parser and its interface.
* `Node`, `initVfs`, `vfsRead`: The nodes and what reading one returns.
-/

namespace SysRust.Initrd

/-! ### The build machine -/

def NAME_LEN : Nat := 64

/-- A file named on the command line: the last component of its path, and
    what it holds. -/
structure HostFile where
  basename : List UInt8
  data : List UInt8
deriving DecidableEq

/-- `u32::to_le_bytes`. -/
def toLeBytes (v : Nat) : List UInt8 := (List.range 4).map (fun i => UInt8.ofNat (v / 256 ^ i))

/-- The name field: at most 63 bytes of the name, padded with zeros. -/
def nameField (basename : List UInt8) : List UInt8 :=
  let n := min basename.length (NAME_LEN - 1)
  basename.take n ++ List.replicate (NAME_LEN - n) 0

/-- What is written for a file. -/
def record (f : HostFile) : List UInt8 :=
  nameField f.basename ++ (toLeBytes (u32 f.data.length) ++ f.data)

/-- The image. Without a file there is a message on how to use the tool, and
    no image. -/
def mkinitrd (files : List HostFile) : Option (List UInt8) :=
  if files.length < 1 then none
  else some (toLeBytes (u32 files.length) ++ files.flatMap record)

/-! ### The kernel -/

def INITRD_MAX_FILES : Nat := 64
def INITRD_NAME_LEN : Nat := 64
def MULTIBOOT_FLAG_MODS : Nat := 1 <<< 3

/-- An entry of the table: the name with its padding, the size, and where the
    contents are. -/
structure InitrdFile where
  name : List UInt8
  size : Nat
  data : Nat

/-- The fields of the boot information that are used. -/
structure MultibootInfo where
  flags : Nat
  modsCount : Nat
  modsAddr : Nat

end Initrd

/-- `FILES` and `FILE_COUNT`. -/
structure Initrd where
  files : Nat → Initrd.InitrdFile
  fileCount : Nat

namespace Initrd

/-- The file whose record is at `ptr`. The last byte of the name is cleared. -/
def readRecord (m : Mem) (ptr : Nat) : InitrdFile where
  name := (bytes m ptr INITRD_NAME_LEN).set (INITRD_NAME_LEN - 1) 0
  size := load m (ptr + INITRD_NAME_LEN) 4
  data := ptr + INITRD_NAME_LEN + 4

/-- The loop over the records, with `n` of them to go. -/
def readRecords (m : Mem) : Nat → Nat → Nat → (Nat → InitrdFile) → (Nat → InitrdFile)
  | 0, _, _, files => files
  | n + 1, i, ptr, files =>
    let f := readRecord m ptr
    readRecords m n (i + 1) (f.data + f.size) (Function.update files i f)

/-- Parse the image, which is the first module. -/
def init (mb : MultibootInfo) (m : Mem) (s : Initrd) : Initrd :=
  if mb.flags &&& MULTIBOOT_FLAG_MODS = 0 ∨ mb.modsCount = 0 then { s with fileCount := 0 }
  else
    -- `mod_start` is the first field of the module entry.
    let ptr := load m mb.modsAddr 4
    let count := if load m ptr 4 > INITRD_MAX_FILES then INITRD_MAX_FILES else load m ptr 4
    { files := readRecords m count 0 (ptr + 4) s.files, fileCount := count }

def getCount (s : Initrd) : Nat := s.fileCount

def getFile (s : Initrd) (index : Nat) : Option InitrdFile :=
  if index ≥ s.fileCount then none else some (s.files index)

/-- The bytes of a name up to the first zero. -/
def cString (name : List UInt8) : List UInt8 := name.takeWhile (fun c => c != 0)

/-- The first file with this name, a string without its terminating zero. -/
def find (s : Initrd) (name : List UInt8) : Option InitrdFile :=
  ((List.range s.fileCount).map s.files).find? (fun f => cString f.name == name)

/-- The fields that `init_vfs` sets in a node. -/
structure Node where
  name : List UInt8
  size : Nat
  inode : Nat
  privateData : Option InitrdFile

/-- The node of a file. -/
def mkNode (i : Nat) (f : InitrdFile) : Node where
  name := (cString f.name).take 63
  size := f.size
  inode := i
  privateData := some f

/-- The nodes that `init_vfs` adds to the root. `alloc i` says whether there
    is memory for the `i`-th; without it the file is left out. -/
def initVfs (alloc : Nat → Bool) (s : Initrd) : List Node :=
  (List.range (getCount s)).filterMap (fun i =>
    match getFile s i with
    | none => none
    | some f => if alloc i then some (mkNode i f) else none)

/-- `initrd_vfs_read`: the value returned, and the bytes put into the
    caller's buffer. -/
def vfsRead (m : Mem) (node : Node) (offset size : Nat) : Int × List UInt8 :=
  match node.privateData with
  | none => (-1, [])
  | some f => Files.initrdVfsRead (window m f.data) f.size offset size

end SysRust.Initrd
