import SysRust.Lib.Service
import SysRust.Theory.Files.Buffer

/-!
# Descriptors on Files in Memory

What descriptors are for, and that the table in `vfs.rs` provides it. In the
model a file is a byte string, and an open descriptor is a file and an
offset, which is any number. Several descriptors may be open on one file, and
each has its own offset.

The code keeps offsets in 32 bits. `vfs_lseek` computes in 64, returns the
result and stores its low half, so that after a seek to `2 ^ 32` the next
read is at the start of the file. And a write that ends above `2 ^ 31` does
not come back, because doubling a capacity of `2 ^ 31` gives zero. With
requests that do neither, every reply is a reply of the model.

## Main definitions

* `Request`, `Reply`, `serve`: The calls and their replies.
* `FileModel`, `FileModel.Step`: Byte strings and offsets.
* `FilesRep`: The state of the code stands for a state of the model.
* `Moderate`: The requests that stay inside of the widths.

## Theorems

* `read_refines`, `write_refines`, `lseek_refines`: One call.
* `step_refines`: One request.
* `descriptors_refine`: All traces.
* `lseek_truncated`: A trace that the model does not have.
-/

namespace SysRust.Files

open Function Option

/-- What a client asks for. A write comes with what `kmalloc` returns if it
    is called. -/
inductive Request where
  | openPath (path : Option CStr)
  | read (fd : Int) (size : Nat)
  | write (fd : Int) (size : Nat) (src : Mem) (heap : Option Mem)
  | lseek (fd offset : Int) (whence : Nat)
  | close (fd : Int)

/-- The code returned and the bytes read. -/
structure Reply where
  code : Int
  data : List UInt8

def serve (s : Files) : Request → Option (Files × Reply)
  | .openPath path => (vfsOpen path s).map (fun r => (r.1, ⟨r.2, []⟩))
  | .read fd size => (vfsFdRead fd size s).map (fun r => (r.1, ⟨r.2.1, r.2.2⟩))
  | .write fd size src heap => (vfsFdWrite fd size src heap s).map (fun r => (r.1, ⟨r.2, []⟩))
  | .lseek fd offset whence =>
    some ((vfsLseek fd offset whence s).1, ⟨(vfsLseek fd offset whence s).2, []⟩)
  | .close fd => some (vfsClose fd s, ⟨0, []⟩)

/-! ### The model -/

/-- Byte strings, and descriptors with a file and an offset each. -/
structure FileModel where
  names : Option CStr → Ptr
  files : Ptr → List UInt8
  table : Nat → Option (Ptr × Nat)

namespace FileModel

/-- The entry of a descriptor, if it is open. -/
def entry (a : FileModel) (fd : Int) : Option (Ptr × Nat) :=
  if fd < 0 ∨ fd ≥ MAX_OPEN_FILES then none else a.table fd.toNat

def setOffset (a : FileModel) (fd : Int) (p : Ptr) (offset : Nat) : FileModel :=
  { a with table := Function.update a.table fd.toNat (some (p, offset)) }

def setContents (a : FileModel) (p : Ptr) (file : List UInt8) : FileModel :=
  { a with files := Function.update a.files p file }

/-- Where a seek counts from. -/
def base (a : FileModel) (p : Ptr) (offset : Nat) : Nat → Option Int
  | 0 => some 0
  | 1 => some offset
  | 2 => some (a.files p).length
  | _ => none

/-- What the calls mean. A write may fail for lack of memory if the file has
    to get longer. -/
inductive Step : FileModel → Request → Reply → FileModel → Prop
  | opened (a : FileModel) (path : Option CStr) (i : Nat) : a.names path ≠ 0 →
      i < MAX_OPEN_FILES → a.table i = none → (∀ j, j < i → a.table j ≠ none) →
      Step a (.openPath path) ⟨i, []⟩
        { a with table := Function.update a.table i (some (a.names path, 0)) }
  | notFound (a : FileModel) (path : Option CStr) : a.names path = 0 →
      Step a (.openPath path) ⟨-1, []⟩ a
  | noEntry (a : FileModel) (path : Option CStr) : (∀ j, j < MAX_OPEN_FILES → a.table j ≠ none) →
      Step a (.openPath path) ⟨-1, []⟩ a
  | readBad (a : FileModel) (fd : Int) (size : Nat) : a.entry fd = none →
      Step a (.read fd size) ⟨-1, []⟩ a
  | read (a : FileModel) (fd : Int) (size : Nat) (p : Ptr) (offset : Nat) (data : List UInt8) :
      a.entry fd = some (p, offset) → data = ((a.files p).drop offset).take size →
      Step a (.read fd size) ⟨data.length, data⟩ (a.setOffset fd p (offset + data.length))
  | writeBad (a : FileModel) (fd : Int) (size : Nat) (src : Mem) (heap : Option Mem) :
      a.entry fd = none → Step a (.write fd size src heap) ⟨-1, []⟩ a
  | writeFails (a : FileModel) (fd : Int) (size : Nat) (src : Mem) (heap : Option Mem) (p : Ptr)
      (offset : Nat) : a.entry fd = some (p, offset) → (a.files p).length < offset + size →
      Step a (.write fd size src heap) ⟨-1, []⟩ a
  | write (a : FileModel) (fd : Int) (size : Nat) (src : Mem) (heap : Option Mem) (p : Ptr)
      (offset : Nat) : a.entry fd = some (p, offset) →
      Step a (.write fd size src heap) ⟨size, []⟩
        ((a.setContents p (writeAt (a.files p) offset (bytes src 0 size))).setOffset fd p
          (offset + size))
  | seekBad (a : FileModel) (fd offset : Int) (whence : Nat) : a.entry fd = none →
      Step a (.lseek fd offset whence) ⟨-1, []⟩ a
  | seekFails (a : FileModel) (fd offset : Int) (whence : Nat) (p : Ptr) (old : Nat) :
      a.entry fd = some (p, old) → (∀ b, a.base p old whence = some b → b + offset < 0) →
      Step a (.lseek fd offset whence) ⟨-1, []⟩ a
  | seek (a : FileModel) (fd offset : Int) (whence : Nat) (p : Ptr) (old new : Nat) (b : Int) :
      a.entry fd = some (p, old) → a.base p old whence = some b → b + offset = new →
      Step a (.lseek fd offset whence) ⟨new, []⟩ (a.setOffset fd p new)
  | close (a : FileModel) (fd : Int) :
      Step a (.close fd) ⟨0, []⟩
        (if fd < 0 ∨ fd ≥ MAX_OPEN_FILES then a
         else { a with table := Function.update a.table fd.toNat none })

def service : Service FileModel Request Reply where
  step := Step

end FileModel

/-! ### The code -/

/-- The node is a file in memory. -/
def Ramfs (s : Files) (p : Ptr) : Prop := ∃ fd, (s.nodes p).backing = .ramfs fd

/-- Where a seek counts from, as the code keeps it. -/
def seekBase (s : Files) (fd : Int) : Nat → Option Int
  | 0 => some 0
  | 1 => some (s.table fd.toNat).offset
  | 2 => some (s.nodes (s.table fd.toNat).node).size
  | _ => none

/-- The arguments are of their types, what is opened is a file in memory, and
    the heap grants what it can. -/
def Allowed (s : Files) : Request → Prop
  | .openPath path => ∃ p, Vfs.resolvePath s.vfs path = some p ∧ (p ≠ 0 → Ramfs s p)
  | .read _ size => size < 2 ^ 32
  | .write fd size _ heap => size < 2 ^ 32 ∧
      ∀ f newCap, (s.nodes (s.table fd.toNat).node).backing = .ramfs f →
        newCapacity ((s.table fd.toNat).offset + size) f.capacity = some newCap → heap ≠ none →
        Grants newCap
  | .lseek _ offset _ => -2 ^ 63 ≤ offset ∧ offset < 2 ^ 63
  | .close _ => True

def service : Service Files Request Reply where
  step := fun s o r t => Allowed s o ∧ serve s o = some (t, r)

/-- No seek to `2 ^ 32` or above, and no write that ends between `2 ^ 31` and
    `2 ^ 32`. -/
def Moderate (s : Files) : Request → Prop
  | .write fd size _ _ => (s.table fd.toNat).offset + size ≤ 2 ^ 31 ∨
      2 ^ 32 ≤ (s.table fd.toNat).offset + size
  | .lseek fd offset whence => ∀ b, seekBase s fd whence = some b → b + offset < 2 ^ 32
  | _ => True

/-- All descriptors are closed, and the files are as creation and writing
    leave them. -/
structure Started (s : Files) : Prop where
  closed : ∀ i, (s.table i).inUse = false
  files : ∀ p fd, (s.nodes p).backing = .ramfs fd → FileOk fd ∧ (s.nodes p).size = fd.size

/-- The byte string of a node. -/
def stringAt (s : Files) (p : Ptr) : List UInt8 :=
  match (s.nodes p).backing with
  | .ramfs fd => contents fd
  | _ => []

/-- The model's state when all descriptors are closed. -/
def initial (s : Files) : FileModel where
  names := fun path => (Vfs.resolvePath s.vfs path).getD 0
  files := stringAt s
  table := fun _ => none

/-! ### Refinement -/

/-- What an entry of the table stands for. -/
def FdEntry.view (e : FdEntry) : Option (Ptr × Nat) :=
  if e.inUse then some (e.node, e.offset) else none

theorem view_open {e : FdEntry} (h : e.inUse = true) : e.view = some (e.node, e.offset) := by
  rw [FdEntry.view, h]
  rfl

theorem view_closed {e : FdEntry} (h : e.inUse = false) : e.view = none := by
  rw [FdEntry.view, h]
  rfl

/-- The state of the code stands for a state of the model. -/
structure FilesRep (s : Files) (a : FileModel) : Prop where
  names : ∀ path, a.names path = (Vfs.resolvePath s.vfs path).getD 0
  ok : ∀ p fd, (s.nodes p).backing = .ramfs fd → FileOk fd ∧ (s.nodes p).size = fd.size
  files : ∀ p, a.files p = stringAt s p
  table : ∀ i, i < MAX_OPEN_FILES → a.table i = (s.table i).view
  opened : ∀ i, i < MAX_OPEN_FILES → (s.table i).inUse = true →
    (s.table i).node ≠ 0 ∧ Ramfs s (s.table i).node ∧ (s.table i).offset < 2 ^ 32

theorem rep_started {s : Files} (h : Started s) : FilesRep s (initial s) where
  names := fun _ => rfl
  ok := h.files
  files := fun _ => rfl
  table := fun i _ => (view_closed (h.closed i)).symm
  opened := fun i _ hi => by
    rw [h.closed i] at hi
    exact absurd hi Bool.false_ne_true

variable {fd : Int}

section Step

variable {s : Files} {a : FileModel}

theorem entry_bad (h : FilesRep s a) (hbad : BadFd s fd) : a.entry fd = none := by
  unfold FileModel.entry
  by_cases hout : fd < 0 ∨ fd ≥ MAX_OPEN_FILES
  · rw [if_pos hout]
  · have hclosed : (s.table fd.toNat).inUse = false := by
      rcases hbad with hneg | hbig | hclosed
      · exact absurd (Or.inl hneg) hout
      · exact absurd (Or.inr hbig) hout
      · exact hclosed
    have hlt : fd.toNat < MAX_OPEN_FILES := by omega
    rw [if_neg hout, h.table _ hlt, view_closed hclosed]

/-- A descriptor that passes the check is open on a file in memory. -/
theorem entry_good (h : FilesRep s a) (hgood : ¬ BadFd s fd) :
    fd.toNat < MAX_OPEN_FILES ∧ (s.table fd.toNat).inUse = true ∧
      a.entry fd = some ((s.table fd.toNat).node, (s.table fd.toNat).offset) ∧
      (s.table fd.toNat).node ≠ 0 ∧ (s.table fd.toNat).offset < 2 ^ 32 ∧
      ∃ f, (s.nodes (s.table fd.toNat).node).backing = .ramfs f ∧ FileOk f ∧
        (s.nodes (s.table fd.toNat).node).size = f.size ∧
        a.files (s.table fd.toNat).node = contents f := by
  have hparts := not_or.mp hgood
  have hrest := not_or.mp hparts.2
  have hlt : fd.toNat < MAX_OPEN_FILES := by omega
  have huse : (s.table fd.toNat).inUse = true := by
    rw [← Bool.not_eq_false]
    exact hrest.2
  rcases h.opened _ hlt huse with ⟨hnode, ⟨f, hf⟩, hoff⟩
  rcases h.ok _ f hf with ⟨hok, hsize⟩
  refine ⟨hlt, huse, ?_, hnode, hoff, f, hf, hok, hsize, ?_⟩
  · rw [FileModel.entry, if_neg (not_or.mpr ⟨hparts.1, hrest.1⟩), h.table _ hlt,
      view_open huse]
  · rw [h.files, stringAt, hf]

theorem table_setEntry_self (s : Files) (i : Nat) (e : FdEntry) : (setEntry s i e).table i = e :=
  update_self _ _ _

theorem table_setEntry_of_ne (s : Files) {i j : Nat} (e : FdEntry) (h : j ≠ i) :
    (setEntry s i e).table j = s.table j := update_of_ne h _ _

/-- One entry of the table is replaced. -/
theorem rep_setEntry (h : FilesRep s a) {i : Nat} {e : FdEntry}
    (hopen : e.inUse = true → e.node ≠ 0 ∧ Ramfs s e.node ∧ e.offset < 2 ^ 32) :
    FilesRep (setEntry s i e) { a with table := Function.update a.table i e.view } := by
  refine ⟨h.names, h.ok, h.files, fun j hj => ?_, fun j hj huse => ?_⟩
  · by_cases hji : j = i
    · rw [hji, table_setEntry_self]
      exact update_self _ _ _
    · rw [table_setEntry_of_ne s _ hji, ← h.table j hj]
      exact update_of_ne hji _ _
  · by_cases hji : j = i
    · rw [hji, table_setEntry_self] at huse ⊢
      exact hopen huse
    · rw [table_setEntry_of_ne s _ hji] at huse ⊢
      exact h.opened j hj huse

/-- A new offset of an open descriptor. -/
theorem rep_setOffset (h : FilesRep s a) (hlt : fd.toNat < MAX_OPEN_FILES)
    (huse : (s.table fd.toNat).inUse = true) {offset : Nat} (hoff : offset < 2 ^ 32) :
    FilesRep (setEntry s fd.toNat { s.table fd.toNat with offset := offset })
      (a.setOffset fd (s.table fd.toNat).node offset) := by
  rcases h.opened _ hlt huse with ⟨hnode, hram, _⟩
  have hrep := rep_setEntry h (i := fd.toNat) (e := { s.table fd.toNat with offset := offset })
    (fun _ => ⟨hnode, hram, hoff⟩)
  rwa [view_open (e := { s.table fd.toNat with offset := offset }) huse] at hrep

/-- The offset moves on by what was transferred. -/
theorem rep_advance (h : FilesRep s a) (hlt : fd.toNat < MAX_OPEN_FILES)
    (huse : (s.table fd.toNat).inUse = true) {n : Nat}
    (hoff : (s.table fd.toNat).offset + n < 2 ^ 32) :
    FilesRep (advance s fd.toNat n)
      (a.setOffset fd (s.table fd.toNat).node ((s.table fd.toNat).offset + n)) := by
  unfold advance
  by_cases hpos : (n : Int) > 0
  · rw [if_pos hpos, Int.toNat_natCast, u32_of_lt hoff]
    exact rep_setOffset h hlt huse hoff
  · have hn : n = 0 := by omega
    rw [if_neg hpos, hn, Nat.add_zero]
    -- Setting the offset to what it is changes nothing.
    have hsame : setEntry s fd.toNat { s.table fd.toNat with offset := (s.table fd.toNat).offset } =
        s := by
      unfold setEntry
      rw [update_eq_self]
    have hrep := rep_setOffset h hlt huse (show (s.table fd.toNat).offset < 2 ^ 32 by omega)
    rw [hsame] at hrep
    exact hrep

/-- A file with a new content. -/
theorem rep_setFile (h : FilesRep s a) {p : Ptr} {f : RamfsFileData} (hf : FileOk f) :
    FilesRep (setFile s p f) (a.setContents p (contents f)) := by
  refine ⟨h.names, fun q fd hq => ?_, fun q => ?_, h.table, fun i hi huse => ?_⟩
  · simp only [setFile] at hq ⊢
    by_cases hqp : q = p
    · rw [hqp, update_self] at hq ⊢
      rw [Backing.ramfs.injEq] at hq
      rw [← hq]
      exact ⟨hf, rfl⟩
    · rw [update_of_ne hqp] at hq ⊢
      exact h.ok q fd hq
  · simp only [FileModel.setContents, stringAt, setFile]
    by_cases hqp : q = p
    · rw [hqp, update_self, update_self]
    · rw [update_of_ne hqp, update_of_ne hqp]
      exact h.files q
  · rcases h.opened i hi huse with ⟨hnode, ⟨g, hg⟩, hoff⟩
    refine ⟨hnode, ?_, hoff⟩
    by_cases hqp : (s.table i).node = p
    · refine ⟨f, ?_⟩
      simp only [setFile]
      rw [hqp, update_self]
    · refine ⟨g, ?_⟩
      simp only [setFile]
      rw [update_of_ne hqp]
      exact hg

/-! ### The calls -/

/-- What a call is to do: come back with a reply of the model. -/
def Refines (s : Files) (a : FileModel) (o : Request) : Prop :=
  ∃ t r, serve s o = some (t, r) ∧ ∃ b, FileModel.Step a o r b ∧ FilesRep t b

theorem read_refines (h : FilesRep s a) (fd : Int) {size : Nat} (hsize : size < 2 ^ 32) :
    Refines s a (.read fd size) := by
  by_cases hbad : BadFd s fd
  · refine ⟨s, ⟨-1, []⟩, ?_, a, .readBad a fd size (entry_bad h hbad), h⟩
    simp only [serve, vfsFdRead, if_pos hbad, map_some]
  rcases entry_good h hbad with ⟨hlt, huse, hentry, hnode, hoff, f, hf, hok, _, hfile⟩
  have hread := readBuffer_spec f.data (s.table fd.toNat).offset (fileOk_lt hok) hsize
  generalize hdata : ((bytes f.data 0 f.size).drop (s.table fd.toNat).offset).take size = data
    at hread
  have hdata' : data = ((a.files (s.table fd.toNat).node).drop (s.table fd.toNat).offset).take
      size := by
    rw [hfile, contents, hdata]
  -- What is read ends inside the file.
  have hend : (s.table fd.toNat).offset + data.length < 2 ^ 32 := by
    have hlen : data.length = min size (f.size - (s.table fd.toNat).offset) := by
      rw [← hdata, bytes_drop_take, length_bytes]
    have hsmall := fileOk_lt hok
    omega
  refine ⟨advance s fd.toNat data.length, ⟨data.length, data⟩, ?_, _,
    .read a fd size _ _ data hentry hdata', rep_advance h hlt huse hend⟩
  simp only [serve, vfsFdRead, if_neg hbad, read, if_neg hnode, hf, ramfsRead, hread,
    map_some]

theorem write_refines (h : FilesRep s a) (fd : Int) {size : Nat} (src : Mem) {heap : Option Mem}
    (ha : Allowed s (.write fd size src heap)) (hm : Moderate s (.write fd size src heap)) :
    Refines s a (.write fd size src heap) := by
  by_cases hbad : BadFd s fd
  · refine ⟨s, ⟨-1, []⟩, ?_, a, .writeBad a fd size src heap (entry_bad h hbad), h⟩
    simp only [serve, vfsFdWrite, if_pos hbad, map_some]
  rcases entry_good h hbad with ⟨hlt, huse, hentry, hnode, hoff, f, hf, hok, _, hfile⟩
  rcases ramfsWrite_spec hok src hoff hm (fun newCap hnew hheap => ha.2 f newCap hf hnew hheap) with
    ⟨r, hr, hcase⟩
  rcases hcase with ⟨hnone, hlong⟩ | ⟨f', hsome, hok', hsize, hcont⟩
  · -- No memory for a longer file.
    refine ⟨s, ⟨-1, []⟩, ?_, a, .writeFails a fd size src heap _ _ hentry ?_, h⟩
    · rw [hnone] at hr
      simp only [serve, vfsFdWrite, if_neg hbad, write, if_neg hnode, hf, hr, map_some]
      rfl
    · rw [hfile, contents, length_bytes]
      exact hlong
  · have hrep := rep_setFile h (p := (s.table fd.toNat).node) hok'
    have hend : (s.table fd.toNat).offset + size < 2 ^ 32 := by
      have hsmall := fileOk_lt hok'
      have hlen := congrArg List.length hcont
      rw [length_writeAt, contents, contents, length_bytes, length_bytes, length_bytes] at hlen
      omega
    rw [hcont, ← hfile] at hrep
    refine ⟨_, ⟨size, []⟩, ?_, _, .write a fd size src heap _ _ hentry,
      rep_advance hrep hlt huse hend⟩
    rw [hsome] at hr
    simp only [serve, vfsFdWrite, if_neg hbad, write, if_neg hnode, hf, hr, map_some,
      i32_of_lt hsize]

theorem i64_of_range {n : Int} (h1 : -2 ^ 63 ≤ n) (h2 : n < 2 ^ 63) : i64 n = n := by
  unfold i64
  rw [Int.bmod_eq_of_le (by omega) (by omega)]

theorem lseek_refines (h : FilesRep s a) (fd : Int) {offset : Int} {whence : Nat}
    (ha : Allowed s (.lseek fd offset whence)) (hm : Moderate s (.lseek fd offset whence)) :
    Refines s a (.lseek fd offset whence) := by
  by_cases hbad : BadFd s fd
  · refine ⟨s, ⟨-1, []⟩, ?_, a, .seekBad a fd offset whence (entry_bad h hbad), h⟩
    simp only [serve, vfsLseek, if_pos hbad]
  rcases entry_good h hbad with ⟨hlt, huse, hentry, hnode, hoff, f, hf, hok, hsize, hfile⟩
  have hlen : ((a.files (s.table fd.toNat).node).length : Int) =
      (s.nodes (s.table fd.toNat).node).size := by
    rw [hfile, contents, length_bytes, hsize]
  -- The model counts from the same place, and the sum does not wrap around.
  have hbase : a.base (s.table fd.toNat).node (s.table fd.toNat).offset whence =
      seekBase s fd whence := by
    unfold FileModel.base seekBase
    rw [hlen]
  have htarget : seekTarget s fd offset whence =
      (seekBase s fd whence).map (fun b => b + offset) := by
    have hlow : -2 ^ 63 ≤ offset := ha.1
    rcases whence with _ | _ | _ | n
    · exact congrArg some (Int.zero_add offset).symm
    · have hhigh := hm _ rfl
      exact congrArg some (i64_of_range (by omega) (by omega))
    · have hhigh := hm _ rfl
      exact congrArg some (i64_of_range (by omega) (by omega))
    · rfl
  cases hb : seekBase s fd whence with
  | none =>
    rw [hb] at hbase htarget
    refine ⟨s, ⟨-1, []⟩, ?_, a, .seekFails a fd offset whence _ _ hentry ?_, h⟩
    · simp only [serve, vfsLseek, if_neg hbad, if_neg hnode, htarget, map_none]
    · rw [hbase]
      exact fun b hb => absurd hb (some_ne_none b).symm
  | some b =>
    rw [hb] at hbase htarget
    rw [map_some] at htarget
    have hmax := hm b hb
    by_cases hneg : b + offset < 0
    · refine ⟨s, ⟨-1, []⟩, ?_, a, .seekFails a fd offset whence _ _ hentry ?_, h⟩
      · simp only [serve, vfsLseek, if_neg hbad, if_neg hnode, htarget, if_pos hneg]
      · rw [hbase]
        intro b' hb'
        rw [← some.inj hb']
        exact hneg
    · have hnew : b + offset = ((b + offset).toNat : Int) := by omega
      have hsmall : (b + offset).toNat < 2 ^ 32 := by omega
      refine ⟨_, ⟨(b + offset).toNat, []⟩, ?_, _,
        .seek a fd offset whence _ _ _ b hentry hbase hnew, rep_setOffset h hlt huse hsmall⟩
      simp only [serve, vfsLseek, if_neg hbad, if_neg hnode, htarget, if_neg hneg,
        u32_of_lt hsmall]
      rw [← hnew]

/-- Opening fails and changes nothing, or takes a free entry for the node of the
    path. -/
theorem vfsOpen_cases {s : Files} {path : Option CStr} {r : Files × Int}
    (h : vfsOpen path s = some r) :
    r = (s, -1) ∨ ∃ p i, Vfs.resolvePath s.vfs path = some p ∧ p ≠ 0 ∧ i < MAX_OPEN_FILES ∧
      (s.table i).inUse = false ∧
      r = (setEntry s i { node := p, offset := 0, inUse := true }, (i : Int)) := by
  rcases map_eq_some_iff.mp h with ⟨p, hp, rfl⟩
  by_cases h0 : p = 0
  · exact Or.inl (if_pos h0)
  rw [if_neg h0]
  cases hfree : freeSlot s with
  | none => exact Or.inl rfl
  | some i =>
    rcases List.find?_range_eq_some.mp hfree with ⟨hclosed, hi, -⟩
    exact Or.inr ⟨p, i, hp, h0, List.mem_range.mp hi, of_decide_eq_true hclosed, rfl⟩

/-- The table has a free entry exactly if the model has, and it is the first
    one. -/
theorem freeSlot_spec (h : FilesRep s a) :
    (∃ i, freeSlot s = some i ∧ i < MAX_OPEN_FILES ∧ a.table i = none ∧
        ∀ j, j < i → a.table j ≠ none) ∨
      (freeSlot s = none ∧ ∀ j, j < MAX_OPEN_FILES → a.table j ≠ none) := by
  have hopen : ∀ j, j < MAX_OPEN_FILES → (s.table j).inUse ≠ false → a.table j ≠ none := by
    intro j hj huse
    rw [h.table j hj, view_open (Bool.eq_true_of_not_eq_false huse)]
    exact some_ne_none _
  cases hfree : freeSlot s with
  | none =>
    refine Or.inr ⟨rfl, fun j hj => hopen j hj (fun hclosed => ?_)⟩
    have hall := List.find?_eq_none.mp hfree j (List.mem_range.mpr hj)
    exact hall (decide_eq_true hclosed)
  | some i =>
    rcases List.find?_range_eq_some.mp hfree with ⟨hclosed, hi, hfirst⟩
    have hi := List.mem_range.mp hi
    refine Or.inl ⟨i, rfl, hi, ?_, fun j hj => hopen j (by omega) (fun hfree' => ?_)⟩
    · rw [h.table i hi, view_closed (of_decide_eq_true hclosed)]
    · have hnot := hfirst j hj
      rw [decide_eq_true hfree'] at hnot
      exact absurd hnot Bool.false_ne_true

theorem open_refines (h : FilesRep s a) {path : Option CStr} (ha : Allowed s (.openPath path)) :
    Refines s a (.openPath path) := by
  rcases ha with ⟨p, hp, hram⟩
  have hname : a.names path = p := by
    rw [h.names, hp]
    rfl
  by_cases hp0 : p = 0
  · refine ⟨s, ⟨-1, []⟩, ?_, a, .notFound a path (hname.trans hp0), h⟩
    simp only [serve, vfsOpen, hp, map_some, if_pos hp0]
  rcases freeSlot_spec h with ⟨i, hfree, hi, hnone, hfirst⟩ | ⟨hfull, hall⟩
  swap
  · refine ⟨s, ⟨-1, []⟩, ?_, a, .noEntry a path hall, h⟩
    simp only [serve, vfsOpen, hp, map_some, if_neg hp0, hfull]
  refine ⟨setEntry s i { node := p, offset := 0, inUse := true }, ⟨i, []⟩, ?_, _,
    .opened a path i (by rw [hname]; exact hp0) hi hnone hfirst, ?_⟩
  · simp only [serve, vfsOpen, hp, map_some, if_neg hp0, hfree]
  rw [hname]
  exact rep_setEntry h (fun _ => ⟨hp0, hram hp0, Nat.two_pow_pos 32⟩)

theorem close_refines (h : FilesRep s a) (fd : Int) : Refines s a (.close fd) := by
  refine ⟨vfsClose fd s, ⟨0, []⟩, rfl, _, .close a fd, ?_⟩
  unfold vfsClose
  by_cases hout : fd < 0 ∨ fd ≥ MAX_OPEN_FILES
  · rw [if_pos hout, if_pos hout]
    exact h
  rw [if_neg hout, if_neg hout]
  exact rep_setEntry h (fun huse => absurd huse Bool.false_ne_true)

/-- Every moderate request comes back with a reply of the model. -/
theorem step_refines (h : FilesRep s a) {o : Request} (ha : Allowed s o) (hm : Moderate s o) :
    Refines s a o := by
  cases o with
  | openPath path => exact open_refines h ha
  | read fd size => exact read_refines h fd ha
  | write fd size src heap => exact write_refines h fd src ha hm
  | lseek fd offset whence => exact lseek_refines h fd ha hm
  | close fd => exact close_refines h fd

end Step

/-! ### All traces -/

/-- Whatever moderate requests are made, from closed descriptors on, the
    replies are replies of the model; and the next such request comes back. -/
theorem descriptors_refine {s t : Files} {log : List (Request × Reply)} (hs : Started s)
    (hrun : (service.restrict Moderate).Trace s log t) :
    (∃ b, FileModel.service.Trace (initial s) log b) ∧
      ∀ o, Allowed t o → Moderate t o → ∃ u r, serve t o = some (u, r) := by
  have hsim := Service.Trace.simulate (N := FileModel.service)
    (fun s a o r t hrep hstep => by
      rcases hstep with ⟨hm, ha, hserve⟩
      rcases step_refines hrep ha hm with ⟨u, r', hserve', b, hb, hrep'⟩
      rw [hserve, some.injEq, Prod.mk.injEq] at hserve'
      rw [hserve'.1, hserve'.2]
      exact ⟨b, hb, hrep'⟩) hrun (rep_started hs)
  rcases hsim with ⟨b, hb, hrep⟩
  refine ⟨⟨b, hb⟩, fun o ha hm => ?_⟩
  rcases step_refines hrep ha hm with ⟨u, r, hserve, _⟩
  exact ⟨u, r, hserve⟩

/-- A file `/f` that holds one byte, with all descriptors closed. -/
def oneByte : Files where
  vfs :=
    { root := 0x1000
      nodes := fun p =>
        if p = 0x1000 then some ((Vfs.dirNode .default [Vfs.SLASH]).push 0x2000)
        else if p = 0x2000 then some { Vfs.fileNode [102] with parent := 0x1000 }
        else none }
  nodes := fun p =>
    if p = 0x2000 then
      { size := 1
        backing := .ramfs { data := fun b => if b = 0 then 97 else 0, size := 1, capacity := 256 } }
    else { size := 0, backing := .directory }
  table := fun _ => FdEntry.empty
  keys := []
  screen := []

theorem oneByte_started : Started oneByte := by
  refine ⟨fun _ => rfl, fun p fd hp => ?_⟩
  by_cases h : p = 0x2000
  · simp only [oneByte, if_pos h, Backing.ramfs.injEq] at hp ⊢
    rw [← hp]
    refine ⟨⟨by decide, by decide, by decide, by decide, fun b hb _ => ?_⟩, rfl⟩
    exact if_neg (Nat.ne_of_gt hb)
  · simp only [oneByte, if_neg h, reduceCtorEq] at hp

theorem oneByte_short (p : Ptr) : (stringAt oneByte p).length ≤ 1 := by
  by_cases h : p = 0x2000
  · rw [h]
    decide
  · simp only [stringAt, oneByte, if_neg h, List.length_nil, Nat.zero_le]

/-- After opening `/f`. -/
def oneByteOpen : Files := setEntry oneByte 0 { node := 0x2000, offset := 0, inUse := true }

theorem oneByte_open : service.step oneByte (.openPath (some [47, 102])) ⟨0, []⟩ oneByteOpen := by
  have hresolve : Vfs.resolvePath oneByte.vfs (some [47, 102]) = some 0x2000 := by decide +kernel
  refine ⟨⟨0x2000, hresolve, fun _ => ⟨_, rfl⟩⟩, ?_⟩
  simp only [serve, vfsOpen, hresolve, map_some]
  rfl

/-- Reading the file through a descriptor gives its byte. -/
theorem descriptors_refine_read : ∃ t b,
    (service.restrict Moderate).Trace oneByte
      [(.openPath (some [47, 102]), ⟨0, []⟩), (.read 0 5, ⟨1, [97]⟩)] t ∧
    FileModel.service.Trace (initial oneByte)
      [(.openPath (some [47, 102]), ⟨0, []⟩), (.read 0 5, ⟨1, [97]⟩)] b := by
  have hrun : ∃ t, (service.restrict Moderate).Trace oneByte
      [(.openPath (some [47, 102]), ⟨0, []⟩), (.read 0 5, ⟨1, [97]⟩)] t :=
    ⟨_, .cons _ _ _ _ _ _ ⟨trivial, oneByte_open⟩
      (.cons _ _ _ _ _ _ ⟨trivial, (by decide : 5 < 2 ^ 32), rfl⟩ (.nil _))⟩
  rcases hrun with ⟨t, ht⟩
  rcases (descriptors_refine oneByte_started ht).1 with ⟨b, hb⟩
  exact ⟨t, b, ht, hb⟩

namespace FileModel

variable {b a : FileModel} {r : Reply}

theorem files_of_open {path : Option CStr} (h : Step a (.openPath path) r b) :
    b.files = a.files := by
  cases h <;> rfl

/-- A seek that returns an offset sets it. -/
theorem offset_of_seek {fd offset : Int} {whence : Nat} (h : Step a (.lseek fd offset whence) r b)
    (hr : 0 ≤ r.code) : b.files = a.files ∧ ∃ p, b.table fd.toNat = some (p, r.code.toNat) := by
  cases h with
  | seekBad => exact absurd hr (by decide)
  | seekFails => exact absurd hr (by decide)
  | seek _ _ _ p => exact ⟨rfl, p, update_self _ _ _⟩

/-- A read returns the bytes from the offset on. -/
theorem data_of_read {fd : Int} {size : Nat} (h : Step a (.read fd size) r b) (hr : 0 ≤ r.code) :
    ∃ p offset, a.table fd.toNat = some (p, offset) ∧
      r.data = ((a.files p).drop offset).take size := by
  cases h with
  | readBad => exact absurd hr (by decide)
  | read _ _ p offset data hentry hdata =>
    refine ⟨p, offset, ?_, hdata⟩
    unfold entry at hentry
    by_cases hout : fd < 0 ∨ fd ≥ MAX_OPEN_FILES
    · rw [if_pos hout] at hentry
      exact absurd hentry (some_ne_none _).symm
    · rw [if_neg hout] at hentry
      exact hentry

end FileModel

/-- After a seek to `2 ^ 32`, which `vfs_lseek` reports as done, the read
    returns the first byte of the file. In the model there is nothing to read
    at that offset. -/
theorem lseek_truncated : ∃ t, Started oneByte ∧
    service.Trace oneByte
      [(.openPath (some [47, 102]), ⟨0, []⟩), (.lseek 0 (2 ^ 32) 0, ⟨2 ^ 32, []⟩),
        (.read 0 1, ⟨1, [97]⟩)] t ∧
    ¬ ∃ b, FileModel.service.Trace (initial oneByte)
      [(.openPath (some [47, 102]), ⟨0, []⟩), (.lseek 0 (2 ^ 32) 0, ⟨2 ^ 32, []⟩),
        (.read 0 1, ⟨1, [97]⟩)] b := by
  refine ⟨_, oneByte_started, .cons _ _ _ _ _ _ oneByte_open (.cons _ _ _ _ _ _
    ⟨(by decide : (-2 ^ 63 : Int) ≤ 2 ^ 32 ∧ (2 ^ 32 : Int) < 2 ^ 63), rfl⟩
    (.cons _ _ _ _ _ _ ⟨(by decide : 1 < 2 ^ 32), rfl⟩ (.nil _))), ?_⟩
  rintro ⟨b, hb⟩
  cases hb with
  | cons _ a1 _ _ _ _ hopen hrest =>
    cases hrest with
    | cons _ a2 _ _ _ _ hseek hrest =>
      cases hrest with
      | cons _ a3 _ _ _ _ hread _ =>
        have hfiles1 := FileModel.files_of_open hopen
        rcases FileModel.offset_of_seek hseek (by decide) with ⟨hfiles2, p, hp⟩
        rcases FileModel.data_of_read hread (by decide) with ⟨q, offset, hq, hdata⟩
        rw [hp, some.injEq, Prod.mk.injEq] at hq
        -- No file is that long.
        have hlong : (a2.files q).length ≤ offset := by
          rw [hfiles2, hfiles1, ← hq.2]
          exact Nat.le_trans (oneByte_short q) (by decide)
        rw [List.drop_eq_nil_of_le hlong] at hdata
        exact absurd hdata (by decide)

end SysRust.Files
