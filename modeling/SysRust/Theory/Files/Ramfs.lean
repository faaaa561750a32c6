import SysRust.Theory.Files.Descriptors

/-!
# A File in Memory

The calls on one file, from its creation on. The file is a byte string: a
read takes a part of it, a write replaces a part of it or fails and leaves it
alone. Offsets and sizes are any 32-bit numbers here, also those at which the
sum wraps around, and those for which `ramfs_write` does not come back.

It does not come back for a write that ends above `2 ^ 31` and below
`2 ^ 32`. The capacity is `256` at first and only ever doubles, so it is a
power of two. The largest one of 32 bits is `2 ^ 31`; the next doubling gives
zero, and zero doubled stays zero, below every size that is asked for. From
`2 ^ 32` on the check against overflow returns before the loop.

The step lemma is about the calls that return, so the first result needs no
condition on the arguments. The second result says which calls these are.

## Main definitions

* `FileCall`, `fileCall`, `fileService`: The calls on one file.
* `Created`: The file is new.
* `ByteFile.Step`: What the calls mean.
* `Doubled`: The capacities that a file can have.
* `FileRep`: The file stands for a byte string.

## Theorems

* `growCap_never`: Above `2 ^ 31` the doubling does not end.
* `ramfsWrite_returns_iff`: Which writes return.
* `call_refines`: One call.
* `file_is_byte_string`: All traces of calls.
* `write_returns_iff`: Which writes return, in every state reached.
-/

namespace SysRust.Files

open Option

/-- A call of `ramfs_read` or `ramfs_write`. A write comes with what `kmalloc`
    returns if it is called. -/
inductive FileCall where
  | read (offset size : Nat)
  | write (offset size : Nat) (src : Mem) (heap : Option Mem)

def fileCall (p : Ptr) (s : Files) : FileCall → Option (Files × Reply)
  | .read offset size => (read s p offset size).map (fun r => (r.1, ⟨r.2.1, r.2.2⟩))
  | .write offset size src heap => (write s p offset size src heap).map (fun r => (r.1, ⟨r.2, []⟩))

/-- The arguments are 32-bit numbers, and the heap grants what it can. -/
def Typed (p : Ptr) (s : Files) : FileCall → Prop
  | .read offset size => offset < 2 ^ 32 ∧ size < 2 ^ 32
  | .write offset size _ heap => offset < 2 ^ 32 ∧ size < 2 ^ 32 ∧
      ∀ f newCap, (s.nodes p).backing = .ramfs f →
        newCapacity (offset + size) f.capacity = some newCap → heap ≠ none → Grants newCap

/-- The calls on the file `p` that return. -/
def fileService (p : Ptr) : Service Files FileCall Reply where
  step := fun s o r t => Typed p s o ∧ fileCall p s o = some (t, r)

/-- The node is as `create_file_in` leaves it. -/
def Created (s : Files) (p : Ptr) : Prop :=
  p ≠ 0 ∧ ∃ block, s.nodes p = { size := 0, backing := .ramfs (newFileData block) }

namespace ByteFile

/-- What the calls mean, for a file that is a byte string. -/
inductive Step : List UInt8 → FileCall → Reply → List UInt8 → Prop
  | read (file : List UInt8) (offset size : Nat) (data : List UInt8) :
      data = (file.drop offset).take size →
      Step file (.read offset size) ⟨data.length, data⟩ file
  | write (file : List UInt8) (offset size : Nat) (src : Mem) (heap : Option Mem) :
      Step file (.write offset size src heap) ⟨size, []⟩ (writeAt file offset (bytes src 0 size))
  | writeFails (file : List UInt8) (offset size : Nat) (src : Mem) (heap : Option Mem) :
      file.length < offset + size → Step file (.write offset size src heap) ⟨-1, []⟩ file

def service : Service (List UInt8) FileCall Reply where
  step := Step

end ByteFile

/-! ### Doubling -/

/-- The capacities that doubling leads to before it wraps around. -/
def Doubled (cap : Nat) : Prop := ∃ k, k ≤ 23 ∧ cap = 256 * 2 ^ k

variable {cap needed : Nat} {p : Ptr} {s t : Files}

theorem doubled_le (h : Doubled cap) : 256 ≤ cap ∧ cap ≤ 2 ^ 31 := by
  rcases h with ⟨k, hk, hcap⟩
  have hlow : 2 ^ 0 ≤ 2 ^ k := Nat.pow_le_pow_right (by decide) (Nat.zero_le k)
  have hhigh : 2 ^ k ≤ 2 ^ 23 := Nat.pow_le_pow_right (by decide) hk
  omega

/-- The next doubling gives a capacity again, or zero. -/
theorem doubled_next (h : Doubled cap) : Doubled (u32 (cap * 2)) ∨ u32 (cap * 2) = 0 := by
  rcases h with ⟨k, hk, hcap⟩
  by_cases hlast : k = 23
  · right
    rw [hcap, hlast]
    decide
  · left
    have hpow : 2 ^ (k + 1) ≤ 2 ^ 23 := Nat.pow_le_pow_right (by decide) (by omega)
    refine ⟨k + 1, by omega, ?_⟩
    rw [u32_of_lt (by rw [pow_succ] at hpow; omega), hcap, pow_succ, Nat.mul_assoc]

/-- What the loop ends with comes from doubling, or is zero, and is enough. -/
theorem growCap_ends {newCap n : Nat} (h : Doubled cap ∨ cap = 0)
    (hgrow : growCap needed n cap = some newCap) :
    (Doubled newCap ∨ newCap = 0) ∧ needed ≤ newCap := by
  fun_induction growCap needed n cap with
  | case1 cap hcap => cases hgrow
  | case3 n cap hcap ih =>
    exact ih (h.elim doubled_next (fun h0 => Or.inr (by rw [h0]; rfl))) hgrow
  | case2 cap hcap | case4 n cap hcap =>
    exact some.inj hgrow ▸ ⟨h, Nat.le_of_not_lt hcap⟩

/-- No number of rounds is enough for a write that ends above `2 ^ 31`. -/
theorem growCap_never (hneeded : 2 ^ 31 < needed) (h : Doubled cap) (n : Nat) :
    growCap needed n cap = none := by
  cases hgrow : growCap needed n cap with
  | none => rfl
  | some newCap =>
    rcases growCap_ends (Or.inl h) hgrow with ⟨hnew | hzero, hle⟩
    · have hmost := doubled_le hnew
      omega
    · omega

theorem newCapacity_doubled {capacity : Nat} (h : Doubled capacity) :
    newCapacity needed capacity = growCap needed 32 capacity := by
  rw [newCapacity, if_neg (Nat.not_lt_of_le (doubled_le h).1)]

/-! ### One write -/

section Write

variable {fd : RamfsFileData} {offset size : Nat}

/-- What a write returns to, apart from the contents: the capacities stay the
    doubled ones. -/
theorem ramfsWrite_doubled (h : Doubled fd.capacity) {src : Mem} {heap : Option Mem}
    {fd' : RamfsFileData} (hw : ramfsWrite heap fd offset size src = some (some fd')) :
    Doubled fd'.capacity := by
  unfold ramfsWrite at hw
  by_cases hbig : size > 0xFFFFFFFF - offset
  · rw [if_pos hbig, some.injEq] at hw
    exact absurd hw.symm (some_ne_none fd')
  rw [if_neg hbig] at hw
  by_cases hgrow : offset + size > fd.capacity
  · rw [if_pos hgrow, newCapacity_doubled h] at hw
    rcases map_eq_some_iff.mp hw with ⟨newCap, hnew, hblock⟩
    rcases map_eq_some_iff.mp hblock with ⟨block, _, hput⟩
    rw [← hput]
    have hspec := growCap_ends (Or.inl h) hnew
    exact hspec.1.resolve_right (by omega)
  · rw [if_neg hgrow, some.injEq, some.injEq] at hw
    rw [← hw]
    exact h

/-- A write returns unless it ends between `2 ^ 31` and `2 ^ 32`. -/
theorem ramfsWrite_returns_iff (h : Doubled fd.capacity) (src : Mem) (heap : Option Mem)
    (hoff : offset < 2 ^ 32) :
    (∃ r, ramfsWrite heap fd offset size src = some r) ↔
      offset + size ≤ 2 ^ 31 ∨ 2 ^ 32 ≤ offset + size := by
  have hcap := doubled_le h
  unfold ramfsWrite
  by_cases hbig : size > 0xFFFFFFFF - offset
  · rw [if_pos hbig]
    exact ⟨fun _ => Or.inr (by omega), fun _ => ⟨none, rfl⟩⟩
  rw [if_neg hbig]
  by_cases hgrow : offset + size > fd.capacity
  · rw [if_pos hgrow]
    by_cases hend : offset + size ≤ 2 ^ 31
    · have hwhole : fd.capacity % 256 = 0 := by
        rcases h with ⟨k, _, hk⟩
        rw [hk, Nat.mul_mod_right]
      rcases newCapacity_spec hend hcap.1 hwhole hgrow with ⟨newCap, hnew, _⟩
      rw [hnew]
      exact ⟨fun _ => Or.inl hend, fun _ => ⟨_, rfl⟩⟩
    · rw [newCapacity_doubled h, growCap_never (by omega) h]
      constructor
      · rintro ⟨r, hr⟩
        exact absurd hr.symm (some_ne_none r)
      · intro hout
        omega
  · rw [if_neg hgrow]
    exact ⟨fun _ => Or.inl (by omega), fun _ => ⟨_, rfl⟩⟩

end Write

/-! ### All calls -/

/-- The node is a file in memory that stands for the byte string. -/
structure FileRep (p : Ptr) (s : Files) (file : List UInt8) : Prop where
  node : p ≠ 0
  rep : ∃ fd, s.nodes p = { size := fd.size, backing := .ramfs fd } ∧ FileOk fd ∧
    Doubled fd.capacity ∧ contents fd = file

theorem created_rep (h : Created s p) : FileRep p s [] := by
  rcases h with ⟨hp, block, hnode⟩
  have hwhole : 256 % 256 = 0 := by decide
  have hmost : 256 ≤ MAX_FILE := by decide
  refine ⟨hp, newFileData block, hnode, ⟨Nat.zero_le _, Nat.le_refl _, hwhole, hmost, ?_⟩,
    ⟨0, by decide, rfl⟩, rfl⟩
  intro b _ hb
  change b < 256 at hb
  exact fill_inside ⟨Nat.zero_le b, by omega⟩

variable {fd : RamfsFileData}

/-- The result of `vfs::write` on a file in memory. -/
theorem write_ramfs (hp : p ≠ 0) (hnode : s.nodes p = { size := fd.size, backing := .ramfs fd })
    (offset size : Nat) (src : Mem) (heap : Option Mem) :
    write s p offset size src heap =
      (ramfsWrite heap fd offset size src).map (fun r =>
        match r with
        | none => (s, -1)
        | some fd => (setFile s p fd, i32 size)) := by
  refine (if_neg hp).trans ?_
  generalize s.nodes p = node at hnode
  subst hnode
  rfl

/-- A call that returns is a step of the byte string. -/
theorem call_refines {file : List UInt8} {o : FileCall} {r : Reply} (h : FileRep p s file)
    (hstep : (fileService p).step s o r t) :
    ∃ file', ByteFile.Step file o r file' ∧ FileRep p t file' := by
  rcases h with ⟨hp, fd, hnode, hok, hdouble, hfile⟩
  rcases hstep with ⟨htyped, hcall⟩
  cases o with
  | read offset size =>
    have hread := readBuffer_spec fd.data offset (fileOk_lt hok) htyped.2
    simp only [fileCall, read, if_neg hp, hnode, ramfsRead, hread, map_some,
      some.injEq, Prod.mk.injEq] at hcall
    rw [← hcall.1, ← hcall.2]
    exact ⟨file, .read file offset size _ (by rw [← hfile]; rfl), hp, fd, hnode, hok, hdouble,
      hfile⟩
  | write offset size src heap =>
    simp only [fileCall, write_ramfs hp hnode] at hcall
    rcases map_eq_some_iff.mp hcall with ⟨res, hres, hreply⟩
    rcases map_eq_some_iff.mp hres with ⟨w, hw, hset⟩
    -- It returned, so it does not end where the loop hangs.
    have hend := (ramfsWrite_returns_iff hdouble src heap htyped.1).mp ⟨w, hw⟩
    have hgrants := fun newCap hnew hheap =>
      htyped.2.2 fd newCap (by rw [hnode]) hnew hheap
    rcases ramfsWrite_spec hok src htyped.1 hend hgrants with ⟨w', hw', hcase⟩
    rw [hw, some.injEq] at hw'
    rw [hw'] at hw hset
    rw [← hset] at hreply
    rcases hcase with ⟨hnone, hlong⟩ | ⟨fd', hsome, hok', hsmall, hcont⟩
    · rw [hnone] at hreply
      simp only [Prod.mk.injEq] at hreply
      rw [← hreply.1, ← hreply.2]
      refine ⟨file, .writeFails file offset size src heap ?_, hp, fd, hnode, hok, hdouble, hfile⟩
      rw [← hfile, contents, length_bytes]
      exact hlong
    · rw [hsome] at hw hreply
      simp only [Prod.mk.injEq, i32_of_lt hsmall] at hreply
      rw [← hreply.1, ← hreply.2]
      refine ⟨_, .write file offset size src heap, hp, fd', Function.update_self _ _ _, hok',
        ramfsWrite_doubled hdouble hw, ?_⟩
      rw [hcont, hfile]

/-- The file that a run of calls leaves. -/
theorem trace_rep {log : List (FileCall × Reply)} (hs : Created s p)
    (hrun : (fileService p).Trace s log t) :
    ∃ file, ByteFile.service.Trace [] log file ∧ FileRep p t file :=
  hrun.simulate (fun _ _ _ _ _ hrep hstep => call_refines hrep hstep) (created_rep hs)

/-- Whatever calls are made on a new file, those that return reply as a byte
    string does, and the node's size is the length of the string. -/
theorem file_is_byte_string {p : Ptr} {s t : Files} {log : List (FileCall × Reply)}
    (hs : Created s p) (hrun : (fileService p).Trace s log t) :
    ∃ file, ByteFile.service.Trace [] log file ∧ (t.nodes p).size = file.length ∧
      stringAt t p = file := by
  rcases trace_rep hs hrun with ⟨file, htrace, _, fd, hnode, _, _, hfile⟩
  refine ⟨file, htrace, ?_, ?_⟩
  · rw [hnode, ← hfile, contents, length_bytes]
  · rw [stringAt, hnode]
    exact hfile

/-- A new file at address 4096. -/
def newFile : Files where
  vfs := { root := 0, nodes := fun _ => none }
  nodes := fun _ => { size := 0, backing := .ramfs (newFileData (fun _ => 0xFF)) }
  table := fun _ => FdEntry.empty
  keys := []
  screen := []

theorem newFile_created : Created newFile 0x1000 := ⟨by decide, _, rfl⟩

/-- Two bytes at offset 2 of a new file: the gap in front of them reads as
    zeros. -/
theorem file_is_byte_string_gap : ∃ t file,
    (fileService 0x1000).Trace newFile
      [(.write 2 2 (fun b => if b = 0 then 97 else 98) none, ⟨2, []⟩),
        (.read 0 10, ⟨4, [0, 0, 97, 98]⟩)] t ∧
    ByteFile.service.Trace []
      [(.write 2 2 (fun b => if b = 0 then 97 else 98) none, ⟨2, []⟩),
        (.read 0 10, ⟨4, [0, 0, 97, 98]⟩)] file ∧
    (t.nodes 0x1000).size = file.length := by
  have hrun : ∃ t, (fileService 0x1000).Trace newFile
      [(.write 2 2 (fun b => if b = 0 then 97 else 98) none, ⟨2, []⟩),
        (.read 0 10, ⟨4, [0, 0, 97, 98]⟩)] t :=
    ⟨_, .cons _ _ _ _ _ _ ⟨⟨by decide, by decide, fun _ _ _ _ h => absurd rfl h⟩, rfl⟩
      (.cons _ _ _ _ _ _ ⟨⟨by decide, by decide⟩, rfl⟩ (.nil _))⟩
  rcases hrun with ⟨t, ht⟩
  rcases file_is_byte_string newFile_created ht with ⟨file, htrace, hsize, _⟩
  exact ⟨t, file, ht, htrace, hsize⟩

/-! ### Which writes return -/

/-- The call returns, with `-1` and the file unchanged if there is no room and
    the heap has none. -/
def Returns (s : Files) (p : Ptr) (offset size : Nat) (src : Mem) (heap : Option Mem) : Prop :=
  ∃ t code, write s p offset size src heap = some (t, code) ∧
    ∀ fd, (s.nodes p).backing = .ramfs fd → fd.capacity < offset + size → heap = none →
      t = s ∧ code = -1

/-- Without a block a write that needs one fails. -/
theorem ramfsWrite_no_block {offset size : Nat} {src : Mem} (hgrow : fd.capacity < offset + size)
    {w : Option RamfsFileData} (hw : ramfsWrite none fd offset size src = some w) : w = none := by
  unfold ramfsWrite at hw
  by_cases hbig : size > 0xFFFFFFFF - offset
  · rw [if_pos hbig, some.injEq] at hw
    exact hw.symm
  · rw [if_neg hbig, if_pos hgrow] at hw
    rcases map_eq_some_iff.mp hw with ⟨_, _, hnone⟩
    exact hnone.symm

/-- In every state that calls lead to, a write returns unless it ends between
    `2 ^ 31` and `2 ^ 32`. -/
theorem write_returns_iff {p : Ptr} {s t : Files} {log : List (FileCall × Reply)} (hs : Created s p)
    (hrun : (fileService p).Trace s log t) {offset size : Nat} (hoff : offset < 2 ^ 32)
    (src : Mem) (heap : Option Mem) :
    Returns t p offset size src heap ↔ offset + size ≤ 2 ^ 31 ∨ 2 ^ 32 ≤ offset + size := by
  rcases trace_rep hs hrun with ⟨_, _, hp, fd, hnode, _, hdouble, _⟩
  rw [← ramfsWrite_returns_iff hdouble src heap hoff]
  constructor
  · rintro ⟨u, code, hwrite, _⟩
    rw [write_ramfs hp hnode] at hwrite
    rcases map_eq_some_iff.mp hwrite with ⟨w, hw, _⟩
    exact ⟨w, hw⟩
  · rintro ⟨w, hw⟩
    refine ⟨_, _, by rw [write_ramfs hp hnode, hw, map_some], fun f hf hgrow hheap => ?_⟩
    rw [hnode, Backing.ramfs.injEq] at hf
    rw [← hf] at hgrow
    rw [hheap] at hw
    rw [ramfsWrite_no_block hgrow hw]
    exact ⟨rfl, rfl⟩

/-- A write of one byte at offset `2 ^ 31 - 1`, without memory, returns. -/
theorem write_returns_last :
    Returns newFile 0x1000 (2 ^ 31 - 1) 1 (fun _ => 0) none :=
  (write_returns_iff newFile_created (.nil _) (by decide) _ _).mpr (Or.inl (by decide))

/-- A write of one byte at offset `2 ^ 31` to a new file does not return, with
    whatever the heap has: no number of rounds ends the loop. -/
theorem write_hangs : Created newFile 0x1000 ∧
    (∀ src heap, write newFile 0x1000 (2 ^ 31) 1 src heap = none) ∧
    ∀ n, growCap (2 ^ 31 + 1) n 256 = none := by
  have hdouble : Doubled 256 := ⟨0, by decide, rfl⟩
  refine ⟨newFile_created, fun src heap => ?_, growCap_never (by decide) hdouble⟩
  have hnever : newCapacity (2 ^ 31 + 1) 256 = none := by
    exact growCap_never (by decide) hdouble 32
  have hw : ramfsWrite heap (newFileData (fun _ => 0xFF)) (2 ^ 31) 1 src = none := by
    rw [ramfsWrite, if_neg (by decide), if_pos (by decide)]
    exact congrArg (Option.map _) hnever
  have hnode : newFile.nodes 0x1000 =
      { size := (newFileData (fun _ => 0xFF)).size
        backing := .ramfs (newFileData (fun _ => 0xFF)) } := rfl
  rw [write_ramfs (by decide) hnode, hw, map_none]

end SysRust.Files
