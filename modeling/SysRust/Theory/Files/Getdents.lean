import SysRust.Core.Getdents
import SysRust.Theory.Files.Syscalls
import SysRust.Theory.Vfs.Nodes
import Mathlib.Algebra.BigOperators.Group.List.Basic
import Mathlib.Data.List.TakeWhile

/-!
# Reading a Directory

A program reads a directory by calls of `sys_getdents64` until one returns 0,
and walks each buffer by the record lengths in it. The largest record takes 88
bytes, so with at least that much room a call that finds children left
reports one of them. What a call reports begins where the call before ended,
whatever the sizes of the buffers are.

## Main definitions

* `Dirent`, `decode`: What a program finds in a buffer.
* `Reader`, `answer`: A program, and what its calls give it.
* `dirsOf`: What the call sees of the tree and the descriptor table.

## Theorems

* `decode_records`: Walking a buffer gives the children that were written.
* `fillBuf_spec`: What one call reports.
* `getdents_enumerates`: The calls report every child once, in order.
* `dirsOf_after`, `ready_of_open`: The calls are steps of the model of files, and
  a directory that has been opened can be read like that.
-/

namespace SysRust.Files

open Vfs Function List

/-- A directory entry as a program sees it. -/
structure Dirent where
  name : CStr
  type : UInt8
  reclen : Nat
deriving DecidableEq

/-- Walk a buffer by `d_reclen`, for at most `n` records. -/
def decode : Nat → List UInt8 → List Dirent
  | 0, _ => []
  | n + 1, bs =>
    match bs.drop 16 with
    | lo :: hi :: type :: name =>
      let len := lo.toNat + 256 * hi.toNat
      ⟨name.takeWhile (· ≠ 0), type, len⟩ :: decode n (bs.drop len)
    | _ => []

/-- All entries of a buffer. -/
def entries (bs : List UInt8) : List Dirent := decode bs.length bs

/-- The entry of a child. -/
def dirent (c : Child) : Dirent where
  name := c.name
  type := if c.flags &&& VFS_DIRECTORY ≠ 0 then 4 else 8
  reclen := reclen c

theorem reclen_bounds (c : Child) : 19 + c.name.length < reclen c ∧ reclen c ≤ 88 := by
  have hshort := c.short
  unfold reclen
  omega

theorem length_record (c : Child) (idx : Nat) : (record c idx).length = reclen c := by
  have hb := reclen_bounds c
  simp only [record, leBytes, length_append, length_map, length_range,
    length_cons, length_nil, length_replicate]
  omega

/-- The fields that are read back stand behind the first sixteen bytes. -/
theorem drop_record (c : Child) (idx : Nat) (rest : List UInt8) :
    ∃ pad, (record c idx ++ rest).drop 16 = UInt8.ofNat (reclen c) ::
      UInt8.ofNat (reclen c / 256) :: (dirent c).type :: (c.name ++ 0 :: pad) := by
  have hb := reclen_bounds c
  have hpad : reclen c - 19 - c.name.length = (reclen c - 19 - c.name.length - 1) + 1 := by omega
  have htwo : leBytes 2 (reclen c) = [UInt8.ofNat (reclen c), UInt8.ofNat (reclen c / 256)] := by
    simp only [leBytes, range_succ, range_zero, nil_append,
      map_cons, map_nil, cons_append, pow_zero, pow_one, Nat.div_one]
  refine ⟨List.replicate (reclen c - 19 - c.name.length - 1) 0 ++ rest, ?_⟩
  rw [record, hpad, replicate_succ, htwo]
  simp only [append_assoc]
  rw [← append_assoc (leBytes 8 _)]
  exact drop_left' rfl

theorem decode_record (c : Child) (idx n : Nat) (rest : List UInt8) :
    decode (n + 1) (record c idx ++ rest) = dirent c :: decode n rest := by
  have hb := reclen_bounds c
  have hlen : (UInt8.ofNat (reclen c)).toNat + 256 * (UInt8.ofNat (reclen c / 256)).toNat =
      reclen c := by
    simp only [UInt8.toNat_ofNat']
    omega
  have hname : ∀ pad, (c.name ++ 0 :: pad).takeWhile (· ≠ 0) = c.name := by
    intro pad
    rw [takeWhile_append_of_pos]
    · simp
    · intro x hx
      exact decide_eq_true (fun h0 => c.text (h0 ▸ hx))
  rcases drop_record c idx rest with ⟨pad, hdrop⟩
  rw [decode, hdrop]
  simp only [hlen, hname, drop_left' (length_record c idx)]
  rfl

theorem decode_records (l : List (Child × Nat)) :
    ∀ n, l.length ≤ n → decode n (records l) = l.map (fun x => dirent x.1) := by
  induction l with
  | nil =>
    intro n _
    cases n <;> rfl
  | cons x l ih =>
    intro n hn
    cases n with
    | zero => exact absurd hn (Nat.not_succ_le_zero _)
    | succ n =>
      rw [records, flatMap_cons, decode_record, map_cons]
      exact congrArg _ (ih n (Nat.le_of_succ_le_succ hn))

theorem length_records (l : List (Child × Nat)) :
    (records l).length = (l.map (fun x => reclen x.1)).sum := by
  rw [records, length_flatMap]
  simp only [length_record]

theorem length_le_records (l : List (Child × Nat)) : l.length ≤ (records l).length := by
  rw [length_records, ← length_map (fun x : Child × Nat => reclen x.1)]
  refine length_le_sum_of_one_le _ (fun n hn => ?_)
  rcases mem_map.mp hn with ⟨x, _, rfl⟩
  have hb := reclen_bounds x.1
  omega

theorem entries_records (l : List (Child × Nat)) :
    entries (records l) = l.map (fun x => dirent x.1) :=
  decode_records l _ (length_le_records l)

/-- The loop reports the next children, as many as fit. -/
theorem fillBuf_spec {dir : DirNode} (hdir : dir.flags &&& VFS_DIRECTORY ≠ 0) (count n : Nat) :
    ∀ idx pos, idx + n = dir.children.length → pos ≤ count →
      (fillBuf dir count n idx pos).map Prod.fst =
          (dir.children.drop idx).take (fillBuf dir count n idx pos).length ∧
        (fillBuf dir count n idx pos).length ≤ n ∧
        (0 < n → pos + 88 ≤ count → fillBuf dir count n idx pos ≠ []) ∧
        pos + (records (fillBuf dir count n idx pos)).length ≤ count := by
  induction n with
  | zero => exact fun idx pos _ hpos => ⟨rfl, Nat.le_refl _, fun h => absurd h (by decide), hpos⟩
  | succ n ih =>
    intro idx pos hn hpos
    have hlt : idx < dir.children.length := by omega
    have hread : defaultReaddir dir idx = some dir.children[idx] := by
      rw [defaultReaddir, if_neg hdir, List.getElem?_eq_getElem hlt]
    have hb := reclen_bounds dir.children[idx]
    rw [fillBuf, hread, drop_eq_getElem_cons hlt]
    dsimp only
    split_ifs with hfull
    · exact ⟨rfl, Nat.zero_le _, fun _ hroom => absurd hfull (by omega), hpos⟩
    · rcases ih (idx + 1) (pos + reclen dir.children[idx]) (by omega) (by omega) with
        ⟨hfst, hle, _, hcount⟩
      refine ⟨?_, Nat.succ_le_succ hle, fun _ _ => cons_ne_nil _ _, ?_⟩
      · rw [map_cons, length_cons, take_succ_cons, hfst]
      · rw [records, flatMap_cons, length_append, length_record, ← Nat.add_assoc]
        exact hcount

/-! ### The calls of a program -/

/-- A program that reads a directory with the buffer sizes `counts`. -/
structure Reader where
  fd : Nat
  buf : Nat
  counts : Nat → Nat
  dirs : Dirs

namespace Reader

/-- The state after `i` calls. -/
def after (r : Reader) : Nat → Dirs
  | 0 => r.dirs
  | i + 1 => (sysGetdents64 r.fd r.buf (r.counts i) (r.after i)).1

/-- What call `i` returns and writes. -/
def answer (r : Reader) (i : Nat) : Nat × List UInt8 :=
  (sysGetdents64 r.fd r.buf (r.counts i) (r.after i)).2

/-- The node that the descriptor is open on. -/
def node (r : Reader) : DirNode := r.dirs.nodes (r.dirs.table r.fd).node

/-- The descriptor has just been opened on a directory, and all buffers have
    room for a record. -/
structure Ready (r : Reader) : Prop where
  buffer : r.buf ≠ 0
  inTable : r.fd < MAX_OPEN_FILES
  inUse : (r.dirs.table r.fd).inUse = true
  notNull : (r.dirs.table r.fd).node ≠ 0
  dir : r.node.flags &&& VFS_DIRECTORY ≠ 0
  offset : (r.dirs.table r.fd).offset = 0
  counts : ∀ i, 88 ≤ r.counts i

/-- The state with `p` children reported. -/
def reported (r : Reader) (p : Nat) : Dirs :=
  { r.dirs with
    table := Function.update r.dirs.table r.fd { r.dirs.table r.fd with offset := p } }

/-- The children that call `i` reports if `p` have been reported. -/
def batch (r : Reader) (i p : Nat) : List (Child × Nat) :=
  fillBuf r.node (r.counts i) (r.node.children.length - p) p 0

/-- How many children have been reported before call `i`. -/
def pos (r : Reader) : Nat → Nat
  | 0 => 0
  | i + 1 => r.pos i + (r.batch i (r.pos i)).length

variable {r : Reader} {p : Nat} (h : r.Ready)

include h

/-- What is reported are the next children, and at least one if there is any. -/
theorem batch_spec (i : Nat) (hp : p ≤ r.node.children.length) :
    (r.batch i p).map Prod.fst = (r.node.children.drop p).take (r.batch i p).length ∧
      p + (r.batch i p).length ≤ r.node.children.length ∧
      (r.batch i p = [] ↔ p = r.node.children.length) ∧
      (records (r.batch i p)).length ≤ r.counts i := by
  have hcount := h.counts i
  rcases fillBuf_spec h.dir (r.counts i) (r.node.children.length - p) p 0 (by omega)
    (Nat.zero_le _) with ⟨hfst, hle, hsome, hfits⟩
  refine ⟨hfst, by rw [batch]; omega, ⟨fun hnil => ?_, fun hend => ?_⟩, by rw [batch]; omega⟩
  · by_contra hne
    exact hsome (by omega) (by omega) hnil
  · rw [batch, hend, Nat.sub_self]
    rfl

theorem call_eq (i : Nat) (hp : p ≤ r.node.children.length) :
    sysGetdents64 r.fd r.buf (r.counts i) (r.reported p) =
      (r.reported (p + (r.batch i p).length), (records (r.batch i p)).length,
        records (r.batch i p)) := by
  have hbuf : ¬ (r.buf = 0 ∨ r.counts i = 0) := by
    have hcount := h.counts i
    have hnull := h.buffer
    omega
  have hfd : ¬ (r.fd ≥ MAX_OPEN_FILES ∨ (r.dirs.table r.fd).inUse = false) := by
    rintro (hge | hfree)
    · exact absurd h.inTable (Nat.not_lt_of_ge hge)
    · exact absurd (h.inUse.symm.trans hfree) Bool.noConfusion
  have hshown : ¬ ((records (r.batch i p)).length = 0 ∧
      (defaultReaddir r.node p).isSome = true) := by
    rintro ⟨hz, hread⟩
    have hnil := length_eq_zero_iff.mp (Nat.le_zero.mp (hz ▸ length_le_records _))
    rw [defaultReaddir, if_neg h.dir, (batch_spec h i hp).2.2.1.mp hnil,
      List.getElem?_eq_none (Nat.le_refl _)] at hread
    exact absurd hread Bool.noConfusion
  have hdir := h.dir
  unfold batch node at hshown ⊢
  unfold node at hdir
  unfold sysGetdents64 reported
  simp only [update_self, update_idem, if_neg hbuf, if_neg hfd,
    if_neg h.notNull, if_neg hdir, if_neg hshown]

theorem pos_le (i : Nat) : r.pos i ≤ r.node.children.length := by
  induction i with
  | zero => exact Nat.zero_le _
  | succ i ih => exact (batch_spec h i ih).2.1

theorem after_eq (i : Nat) : r.after i = r.reported (r.pos i) := by
  induction i with
  | zero =>
    rw [after, reported, pos, ← h.offset, update_eq_self]
  | succ i ih => rw [after, ih, call_eq h i (pos_le h i), pos]

theorem answer_eq (i : Nat) :
    r.answer i = ((records (r.batch i (r.pos i))).length, records (r.batch i (r.pos i))) := by
  rw [answer, after_eq h, call_eq h i (pos_le h i)]

/-- Every call gets on as long as there are children left. -/
theorem le_pos (i : Nat) : min i r.node.children.length ≤ r.pos i := by
  induction i with
  | zero => exact (Nat.min_le_left _ _).trans (Nat.zero_le _)
  | succ i ih =>
    have hnil := (batch_spec h i (pos_le h i)).2.2.1
    rw [← length_eq_zero_iff] at hnil
    rw [pos]
    omega

theorem entries_upTo (i : Nat) :
    (List.range i).flatMap (fun j => entries (r.answer j).2) =
      (r.node.children.take (r.pos i)).map dirent := by
  induction i with
  | zero => rfl
  | succ i ih =>
    rw [range_succ, flatMap_append, ih, pos, take_add, map_append,
      ← (batch_spec h i (pos_le h i)).1, flatMap_singleton, answer_eq h, entries_records,
      map_map]
    rfl

omit h

/-- After finitely many calls, and from then on, the answer is 0. Until then
    each call returns the number of bytes it has written, not more than fit;
    they are records of a multiple of eight bytes, and the records of all calls
    are the children in order. -/
theorem getdents_enumerates {r : Reader} (h : r.Ready) :
    ∃ n, (∀ i, (r.answer i).1 = 0 ↔ n ≤ i) ∧
      (List.range n).flatMap (fun i => entries (r.answer i).2) = r.node.children.map dirent ∧
      ∀ i, (r.answer i).2.length = (r.answer i).1 ∧
        ((entries (r.answer i).2).map Dirent.reclen).sum = (r.answer i).1 ∧
        (r.answer i).1 ≤ r.counts i ∧ ∀ e ∈ entries (r.answer i).2, e.reclen % 8 = 0 := by
  have hzero : ∀ i, (r.answer i).1 = 0 ↔ r.pos i = r.node.children.length := by
    intro i
    have hle := length_le_records (r.batch i (r.pos i))
    rw [← (batch_spec h i (pos_le h i)).2.2.1, answer_eq h]
    refine ⟨fun hz => length_eq_zero_iff.mp (Nat.le_zero.mp (hz ▸ hle)), fun hl => ?_⟩
    rw [hl]
    rfl
  have hend : ∃ i, r.pos i = r.node.children.length := by
    have hle := le_pos h r.node.children.length
    rw [Nat.min_self] at hle
    exact ⟨_, Nat.le_antisymm (pos_le h _) hle⟩
  have hstays : ∀ i, Nat.find hend ≤ i → r.pos i = r.node.children.length := by
    intro i hi
    induction i, hi using Nat.le_induction with
    | base => exact Nat.find_spec hend
    | succ i _ ih =>
      rw [pos, (batch_spec h i (pos_le h i)).2.2.1.mpr ih, ih, length_nil, Nat.add_zero]
  refine ⟨Nat.find hend, fun i => ?_, ?_, fun i => ?_⟩
  · rw [hzero]
    exact ⟨fun hi => Nat.find_le hi, hstays i⟩
  · rw [entries_upTo h, Nat.find_spec hend, take_length]
  · rw [answer_eq h, entries_records, map_map]
    refine ⟨rfl, (length_records _).symm, (batch_spec h i (pos_le h i)).2.2.2, fun e he => ?_⟩
    rcases mem_map.mp he with ⟨x, _, rfl⟩
    exact Nat.mul_mod_left _ _

/-! ### The directories of the tree -/

/-- The node at an address as a child. `strlen` stops at the first zero in the
    name field. -/
def childAt (inode : Ptr → Nat) (v : Vfs) (p : Ptr) : Child where
  name := (copyName ((v.nodes p).getD .zeroed).name).takeWhile (· ≠ 0)
  flags := ((v.nodes p).getD .zeroed).flags
  inode := inode p
  short := (takeWhile_sublist _).length_le.trans (length_take_le _ _)
  text := fun h => by simpa using mem_takeWhile_imp h

/-- The node at an address as a directory. -/
def dirAt (inode : Ptr → Nat) (v : Vfs) (p : Ptr) : DirNode where
  flags := ((v.nodes p).getD .zeroed).flags
  children := ((kids v p).take VFS_MAX_CHILDREN).map (childAt inode v)
  room := by
    rw [length_map]
    exact length_take_le _ _

def dirsOf (inode : Ptr → Nat) (s : Files) : Dirs where
  nodes := dirAt inode s.vfs
  table := s.table

/-- A call changes the descriptor table only. -/
theorem dirsOf_after (inode : Ptr → Nat) (fd buf count : Nat) (s : Files) :
    (sysGetdents64 fd buf count (dirsOf inode s)).1 =
      dirsOf inode { s with table := (sysGetdents64 fd buf count (dirsOf inode s)).1.table } := by
  unfold sysGetdents64
  dsimp only
  split_ifs <;> rfl

/-- A directory that has just been opened is ready, and its children are the
    ones that the node lists. -/
theorem ready_of_open (inode : Ptr → Nat) {s t : Files} {path : Option CStr} {r : Reader}
    (hr : r.dirs = dirsOf inode t) (hopen : sysOpen path s = some (t, r.fd))
    (hok : r.fd ≠ asU64 (-1)) (hinv : Vfs.Inv t.vfs) (hdir : r.node.flags &&& VFS_DIRECTORY ≠ 0)
    (hbuf : r.buf ≠ 0) (hcounts : ∀ i, 88 ≤ r.counts i) :
    r.Ready ∧
      r.node.children = (kids t.vfs (t.table r.fd).node).map (childAt inode t.vfs) := by
  rcases sysOpen_spec hopen hok with ⟨p, _, hp0, hlt, ⟨huse, hnode⟩, hoffset⟩
  have htable : r.dirs.table = t.table := by rw [hr, dirsOf]
  refine ⟨⟨hbuf, hlt, htable ▸ huse, ?_, hdir, htable ▸ hoffset, hcounts⟩, ?_⟩
  · rw [htable, hnode]
    exact hp0
  · have hbound : (kids t.vfs p).length ≤ VFS_MAX_CHILDREN := by
      cases hn : t.vfs.nodes p with
      | none => simp only [kids_none hn, length_nil, Nat.zero_le]
      | some n =>
        rw [kids_some hn, VfsNode.slots, length_map, length_range]
        exact (hinv.nodes p n hn).bound
    simp only [node, hr, dirsOf, dirAt, hnode, take_of_length_le hbound]

/-- Descriptor 3 on a directory with one file and one directory. -/
def pair : Reader where
  fd := 3
  buf := 0x1000
  counts := fun _ => 88
  dirs :=
    { nodes := fun _ => ⟨VFS_DIRECTORY, [⟨[0x61], VFS_FILE, 0, by decide, by decide⟩,
        ⟨[0x62, 0x63], VFS_DIRECTORY, 7, by decide, by decide⟩], by decide⟩
      table := fun _ => ⟨8, 0, true⟩ }

theorem getdents_enumerates_pair :
    (∃ n, (List.range n).flatMap (fun i => entries (pair.answer i).2) =
      [⟨[0x61], 8, 24⟩, ⟨[0x62, 0x63], 4, 24⟩]) := by
  rcases getdents_enumerates (r := pair) ⟨by decide, by decide, rfl, by decide, by decide, rfl,
    fun _ => Nat.le_refl _⟩ with ⟨n, _, hall, _⟩
  exact ⟨n, hall⟩

end Reader

end SysRust.Files
