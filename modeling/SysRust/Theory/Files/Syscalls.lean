import SysRust.Lib.Machine
import SysRust.Theory.Files.Descriptors

/-!
# Descriptors of System Calls

The descriptor table is allocated from entry 0 on, and the system calls give
0, 1 and 2 a meaning of their own: reading 0 waits for a key, and writing 1
or 2 goes to the screen. Nothing reserves these entries, so the first files
that are opened get them. A file whose descriptor is another one is read and
written through it until it is closed, whatever other calls are made.

## Main definitions

* `Call`, `callsKeeping`: The calls, and their runs without closing one
  descriptor.
* `OpenOn`: A descriptor is open on a node.

## Theorems

* `openOn_call`: Other calls do not move a descriptor to another node.
* `sysOpen_addresses`: Reading and writing through the descriptor is reading
  and writing the node.
* `sysRead_keyboard`: The first file opened is not read.
-/

namespace SysRust.Files

open Option

/-- The system calls on descriptors. -/
inductive Call where
  | openPath (path : Option CStr)
  | read (fd len : Nat)
  | write (fd len : Nat) (src : Mem) (heap : Option Mem)
  | lseek (fd offset whence : Nat)
  | close (fd : Nat)

def call (s : Files) : Call → Option Files
  | .openPath path => (sysOpen path s).map Prod.fst
  | .read fd len => (sysRead fd len s).map Prod.fst
  | .write fd len src heap => (sysWrite fd len src heap s).map Prod.fst
  | .lseek fd offset whence => some (sysLseek fd offset whence s).1
  | .close fd => some (sysClose fd s).1

/-- All runs from `s` in which the descriptor is not closed. -/
def callsKeeping (fd : Nat) (s : Files) : Machine Files Call where
  start := fun t => t = s
  allows := fun _ c => ∀ g, c = .close g → i32 g ≠ fd
  exec := call

/-- The descriptor is open on the node. -/
def OpenOn (s : Files) (fd : Nat) (p : Ptr) : Prop :=
  (s.table fd).inUse = true ∧ (s.table fd).node = p

variable {offset size g len : Nat} {t : Files} {heap : Option Mem} {path : Option CStr}

section Call

variable {s : Files} {fd : Nat} {p : Ptr}

/-- A new offset of any descriptor. -/
theorem openOn_setOffset (h : OpenOn s fd p) (i offset : Nat) :
    OpenOn (setEntry s i { s.table i with offset := offset }) fd p := by
  unfold OpenOn
  by_cases hi : fd = i
  · rw [hi, table_setEntry_self]
    rw [OpenOn, hi] at h
    exact h
  · rw [table_setEntry_of_ne s _ hi]
    exact h

theorem openOn_advance (h : OpenOn s fd p) (i : Nat) (code : Int) :
    OpenOn (advance s i code) fd p := by
  unfold advance
  by_cases hpos : code > 0
  · rw [if_pos hpos]
    exact openOn_setOffset h i _
  · rw [if_neg hpos]
    exact h

/-- A read changes at most the keys. -/
theorem table_read {node : Ptr} {r : Files × Int × List UInt8}
    (h : read s node offset size = some r) : r.1.table = s.table := by
  unfold read at h
  by_cases h0 : node = 0
  · rw [if_pos h0, some.injEq] at h
    rw [← h]
  rw [if_neg h0] at h
  cases hb : (s.nodes node).backing <;> rw [hb] at h
  case devConsole =>
    rcases map_eq_some_iff.mp h with ⟨q, _, hq⟩
    rw [← hq]
  all_goals
    rw [some.injEq] at h
    rw [← h]

/-- A write changes at most the file and the screen. -/
theorem table_write {node : Ptr} {src : Mem} {r : Files × Int}
    (h : write s node offset size src heap = some r) : r.1.table = s.table := by
  unfold write at h
  by_cases h0 : node = 0
  · rw [if_pos h0, some.injEq] at h
    rw [← h]
  rw [if_neg h0] at h
  cases hb : (s.nodes node).backing <;> rw [hb] at h
  case ramfs f =>
    rcases map_eq_some_iff.mp h with ⟨q, _, hq⟩
    cases q with
    | none => rw [← hq]
    | some f' =>
      rw [← hq]
      rfl
  all_goals
    rw [some.injEq] at h
    rw [← h]

theorem openOn_of_table (h : OpenOn s fd p) (ht : t.table = s.table) : OpenOn t fd p := by
  rw [OpenOn, ht]
  exact h

theorem openOn_sysOpen (h : OpenOn s fd p) (ht : (sysOpen path s).map Prod.fst = some t) :
    OpenOn t fd p := by
  rcases map_eq_some_iff.mp ht with ⟨r, hr, rfl⟩
  rcases map_eq_some_iff.mp hr with ⟨q, hq, rfl⟩
  rcases vfsOpen_cases hq with rfl | ⟨_, i, _, _, _, hclosed, rfl⟩
  · exact h
  -- The entry taken was free, and this one is not.
  have hne : fd ≠ i := by
    rintro rfl
    rw [h.1] at hclosed
    exact absurd hclosed.symm Bool.false_ne_true
  unfold OpenOn
  simp only [table_setEntry_of_ne s _ hne]
  exact h

theorem openOn_sysRead (h : OpenOn s fd p) (ht : (sysRead g len s).map Prod.fst = some t) :
    OpenOn t fd p := by
  rcases map_eq_some_iff.mp ht with ⟨r, hr, hrt⟩
  rw [← hrt]
  unfold sysRead at hr
  by_cases hg : g = 0
  · rw [if_pos hg] at hr
    by_cases hl : len = 0
    · rw [if_pos hl, some.injEq] at hr
      rw [← hr]
      exact h
    · rw [if_neg hl] at hr
      cases hk : s.keys with
      | nil =>
        rw [hk] at hr
        exact absurd hr (some_ne_none r).symm
      | cons c keys =>
        rw [hk, some.injEq] at hr
        rw [← hr]
        exact h
  · rw [if_neg hg] at hr
    rcases map_eq_some_iff.mp hr with ⟨q, hq, hqr⟩
    rw [← hqr]
    unfold vfsFdRead at hq
    by_cases hbad : BadFd s (i32 g)
    · rw [if_pos hbad, some.injEq] at hq
      rw [← hq]
      exact h
    · rw [if_neg hbad] at hq
      rcases map_eq_some_iff.mp hq with ⟨u, hu, huq⟩
      rw [← huq]
      exact openOn_advance (openOn_of_table h (table_read hu)) _ _

theorem openOn_sysWrite (h : OpenOn s fd p) {src : Mem}
    (ht : (sysWrite g len src heap s).map Prod.fst = some t) : OpenOn t fd p := by
  rcases map_eq_some_iff.mp ht with ⟨r, hr, hrt⟩
  rw [← hrt]
  unfold sysWrite at hr
  by_cases hg : g = 1 ∨ g = 2
  · rw [if_pos hg, some.injEq] at hr
    rw [← hr]
    exact h
  · rw [if_neg hg] at hr
    rcases map_eq_some_iff.mp hr with ⟨q, hq, hqr⟩
    rw [← hqr]
    unfold vfsFdWrite at hq
    by_cases hbad : BadFd s (i32 g)
    · rw [if_pos hbad, some.injEq] at hq
      rw [← hq]
      exact h
    · rw [if_neg hbad] at hq
      rcases map_eq_some_iff.mp hq with ⟨u, hu, huq⟩
      rw [← huq]
      exact openOn_advance (openOn_of_table h (table_write hu)) _ _

theorem openOn_sysLseek (h : OpenOn s fd p) (g offset whence : Nat) :
    OpenOn (sysLseek g offset whence s).1 fd p := by
  simp only [sysLseek, vfsLseek]
  by_cases hbad : BadFd s (i32 g)
  · rw [if_pos hbad]
    exact h
  rw [if_neg hbad]
  by_cases h0 : (s.table (i32 g).toNat).node = 0
  · rw [if_pos h0]
    exact h
  rw [if_neg h0]
  cases seekTarget s (i32 g) (i64 offset) (u32 whence) with
  | none => exact h
  | some new =>
    by_cases hneg : new < 0
    · simp only [if_pos hneg]
      exact h
    · simp only [if_neg hneg]
      exact openOn_setOffset h _ _

theorem openOn_sysClose (h : OpenOn s fd p) (hg : i32 g ≠ fd) : OpenOn (sysClose g s).1 fd p := by
  simp only [sysClose, vfsClose]
  by_cases hout : i32 g < 0 ∨ i32 g ≥ MAX_OPEN_FILES
  · rw [if_pos hout]
    exact h
  · rw [if_neg hout]
    have hne : fd ≠ (i32 g).toNat := by omega
    unfold OpenOn
    rw [table_setEntry_of_ne s _ hne]
    exact h

/-- No call moves a descriptor to another node, except to close it. -/
theorem openOn_call (h : OpenOn s fd p) {c : Call} (hc : ∀ g, c = .close g → i32 g ≠ fd)
    (ht : call s c = some t) : OpenOn t fd p := by
  cases c with
  | openPath path => exact openOn_sysOpen h ht
  | read g len => exact openOn_sysRead h ht
  | write g len src heap => exact openOn_sysWrite h ht
  | lseek g offset whence =>
    rw [← some.inj ht]
    exact openOn_sysLseek h g offset whence
  | close g =>
    rw [← some.inj ht]
    exact openOn_sysClose h (hc g rfl)

theorem openOn_reachable {s : Files} {fd : Nat} {p : Ptr} (h : OpenOn s fd p)
    (ht : (callsKeeping fd s).Reachable t) : OpenOn t fd p := by
  refine Machine.Reachable.invariant (M := callsKeeping fd s) (fun t => OpenOn t fd p) ?_ ?_ ht
  · intro u hu
    rw [show u = s from hu]
    exact h
  · exact fun u v c hu hc hv => openOn_call hu hc hv

end Call

/-- What a successful `sys_open` does. -/
theorem sysOpen_spec {s : Files} {fd : Nat} (h : sysOpen path s = some (t, fd))
    (hok : fd ≠ asU64 (-1)) :
    ∃ p, Vfs.resolvePath s.vfs path = some p ∧ p ≠ 0 ∧ fd < MAX_OPEN_FILES ∧ OpenOn t fd p ∧
      (t.table fd).offset = 0 := by
  rcases map_eq_some_iff.mp h with ⟨q, hq, hqr⟩
  rw [Prod.mk.injEq] at hqr
  rcases vfsOpen_cases hq with rfl | ⟨p, i, hp, h0, hi, _, rfl⟩
  · exact absurd hqr.2.symm hok
  have hfd : i = fd := by
    rw [← hqr.2, asU64]
    simp only [MAX_OPEN_FILES] at hi
    omega
  rw [← hqr.1, ← hfd]
  refine ⟨p, hp, h0, hi, ⟨?_, ?_⟩, ?_⟩ <;> rw [table_setEntry_self]

/-- A descriptor of the table passes the check of the descriptor functions. -/
theorem not_badFd {s : Files} {fd : Nat} {p : Ptr} (h : OpenOn s fd p)
    (hlt : fd < MAX_OPEN_FILES) : i32 fd = fd ∧ ¬ BadFd s (i32 fd) := by
  have hi : i32 fd = fd := i32_of_lt (by simp only [MAX_OPEN_FILES] at hlt; omega)
  refine ⟨hi, ?_⟩
  rw [hi]
  rintro (hneg | hbig | hclosed)
  · omega
  · omega
  · rw [Int.toNat_natCast, h.1] at hclosed
    exact absurd hclosed.symm Bool.false_ne_true

/-- The descriptor that `sys_open` returns is open on the node of the path
    until it is closed. Unless it is 0, reading it reads that node at the
    descriptor's offset; unless it is 1 or 2, writing it writes that node. -/
theorem sysOpen_addresses {s s1 t : Files} {path : Option CStr} {fd : Nat}
    (hopen : sysOpen path s = some (s1, fd)) (hok : fd ≠ asU64 (-1))
    (hrun : (callsKeeping fd s1).Reachable t) :
    ∃ p, Vfs.resolvePath s.vfs path = some p ∧ p ≠ 0 ∧
      (fd ≠ 0 → ∀ len, sysRead fd len t =
        (read t p (t.table fd).offset (u32 len)).map (fun r =>
          (advance r.1 fd r.2.1, asU64 r.2.1, r.2.2))) ∧
      (fd ≠ 1 → fd ≠ 2 → ∀ len src heap, sysWrite fd len src heap t =
        (write t p (t.table fd).offset (u32 len) src heap).map (fun r =>
          (advance r.1 fd r.2, asU64 r.2))) := by
  rcases sysOpen_spec hopen hok with ⟨p, hp, hp0, hlt, hon, _⟩
  have hont := openOn_reachable hon hrun
  rcases not_badFd hont hlt with ⟨hi, hgood⟩
  have hnode := hont.2
  refine ⟨p, hp, hp0, fun h0 len => ?_, fun h1 h2 len src heap => ?_⟩
  · rw [sysRead, if_neg h0, vfsFdRead, if_neg hgood, hi, Int.toNat_natCast, hnode, map_map]
    rfl
  · rw [sysWrite, if_neg (not_or.mpr ⟨h1, h2⟩), vfsFdWrite, if_neg hgood, hi, Int.toNat_natCast,
      hnode, map_map]
    rfl

/-- With three descriptors taken, the file is opened as the fourth, and its
    byte is read. -/
def threeTaken : Files :=
  { oneByte with table := fun i =>
      if i < 3 then { node := 0x2000, offset := 0, inUse := true } else FdEntry.empty }

/-- After opening the file. -/
def fourthOpen : Files := setEntry threeTaken 3 { node := 0x2000, offset := 0, inUse := true }

theorem sysOpen_addresses_fourth :
    sysOpen (some [47, 102]) threeTaken = some (fourthOpen, 3) ∧
      (sysRead 3 1 fourthOpen).map Prod.snd = some (1, [97]) := by
  have hresolve : Vfs.resolvePath threeTaken.vfs (some [47, 102]) = some 0x2000 := by
    decide +kernel
  have hopen : sysOpen (some [47, 102]) threeTaken = some (fourthOpen, 3) := by
    simp only [sysOpen, vfsOpen, hresolve, map_some]
    rfl
  rcases sysOpen_addresses hopen (by decide) (Machine.Reachable.start fourthOpen rfl) with
    ⟨p, hp, _, hread, _⟩
  rw [hresolve, some.injEq] at hp
  refine ⟨hopen, ?_⟩
  rfl

/-- The first file that is opened gets descriptor 0, and reading that returns
    the key typed and not the byte of the file. -/
theorem sysRead_keyboard :
    ∃ s, sysOpen (some [47, 102]) { oneByte with keys := [120] } = some (s, 0) ∧
      stringAt s 0x2000 = [97] ∧ (sysRead 0 1 s).map Prod.snd = some (1, [120]) := by
  have hresolve : Vfs.resolvePath oneByte.vfs (some [47, 102]) = some 0x2000 := by decide +kernel
  refine ⟨setEntry { oneByte with keys := [120] } 0 { node := 0x2000, offset := 0, inUse := true },
    ?_, rfl, rfl⟩
  simp only [sysOpen, vfsOpen, hresolve, map_some]
  rfl

end SysRust.Files
