import SysRust.Core.Files
import SysRust.Theory.Heap.Runs
import SysRust.Theory.Heap.Reuse

/-!
# Files as Byte Strings

A file in memory is a buffer with a size and a capacity. What it stands for
is the string of its first `size` bytes. Reading takes a part of the string.
Writing replaces a part of it, and fills the gap with zeros if it starts past
the end: the bytes between size and capacity are zero, since buffers are
zeroed when they are taken and a file never gets shorter.

The capacity doubles until the write fits. The doubling is right as long as
the end of the write is at most `2 ^ 31`; then the heap, which never grants
more than it can hold, keeps every file far below the sizes at which a signed
32-bit return value would turn negative.

## Main definitions

* `contents`: The byte string that a file stands for.
* `FileOk`: What creation and writing keep up.
* `writeAt`: Replace a part of a byte string.
* `Grants`: The heap can hand out a block of this size.

## Theorems

* `readBuffer_eq`, `readBuffer_spec`: What reading returns.
* `growCap_spec`: The doubling ends at a capacity that is large enough.
* `ramfsWrite_spec`: What writing does.
-/

namespace SysRust.Files

open List

def contents (fd : RamfsFileData) : List UInt8 := bytes fd.data 0 fd.size

/-- The most that the heap ever grants. -/
def MAX_FILE : Nat := Heap.HEAP_MAX_PAGES * Heap.VMM_PAGE_SIZE

/-- The bytes of a file behind its end are zero. -/
structure FileOk (fd : RamfsFileData) : Prop where
  fits : fd.size ≤ fd.capacity
  least : 256 ≤ fd.capacity
  whole : fd.capacity % 256 = 0
  most : fd.capacity ≤ MAX_FILE
  zero : ∀ b, fd.size ≤ b → b < fd.capacity → fd.data b = 0

variable {fd : RamfsFileData} {fileSize size offset needed : Nat}

theorem fileOk_lt (h : FileOk fd) : fd.size < 2 ^ 31 := by
  have hmost := h.most
  have hfits := h.fits
  simp only [MAX_FILE, Heap.HEAP_MAX_PAGES, Heap.VMM_PAGE_SIZE] at hmost
  omega

/-! ### Reading -/

/-- Reading takes what there is from the offset on, up to the size asked for.
    The number of bytes is returned as a signed number. -/
theorem readBuffer_eq (data : Mem) (offset : Nat) (hfile : fileSize < 2 ^ 32)
    (hsize : size < 2 ^ 32) :
    readBuffer data fileSize offset size =
      (i32 (((bytes data 0 fileSize).drop offset).take size).length,
        ((bytes data 0 fileSize).drop offset).take size) := by
  rw [bytes_drop_take, Nat.zero_add, length_bytes]
  unfold readBuffer
  by_cases hend : offset ≥ fileSize
  · have h0 : min size (fileSize - offset) = 0 := by omega
    rw [if_pos hend, h0]
    rfl
  · rw [if_neg hend]
    -- Both ways of cutting the size are the minimum.
    by_cases hbig : size > 0xFFFFFFFF - offset
    · have hsum : u32 (offset + (fileSize - offset)) = fileSize := by
        rw [Nat.add_sub_cancel' (by omega)]
        exact u32_of_lt (by omega)
      simp only [if_pos hbig, hsum, gt_iff_lt, Nat.lt_irrefl, if_false]
      rw [show min size (fileSize - offset) = fileSize - offset by omega]
    · have hsum : u32 (offset + size) = offset + size := u32_of_lt (by omega)
      simp only [if_neg hbig, hsum]
      by_cases hover : offset + size > fileSize
      · rw [if_pos hover, show min size (fileSize - offset) = fileSize - offset by omega]
      · rw [if_neg hover, show min size (fileSize - offset) = size by omega]

/-- In a file of less than `2 ^ 31` bytes the number returned is never
    negative. -/
theorem readBuffer_spec (data : Mem) (offset : Nat) (hfile : fileSize < 2 ^ 31)
    (hsize : size < 2 ^ 32) :
    readBuffer data fileSize offset size =
      (((((bytes data 0 fileSize).drop offset).take size).length : Int),
        ((bytes data 0 fileSize).drop offset).take size) := by
  have hlen : (((bytes data 0 fileSize).drop offset).take size).length < 2 ^ 31 := by
    rw [length_take, length_drop, length_bytes]
    omega
  rw [readBuffer_eq data offset (by omega) hsize, i32_of_lt hlen]

/-! ### Writing -/

/-- Replace the bytes from `off` on, after filling a gap with zeros. -/
def writeAt (file : List UInt8) (off : Nat) (new : List UInt8) : List UInt8 :=
  (file ++ List.replicate (off - file.length) 0).take off ++ new ++ file.drop (off + new.length)

theorem length_writeAt (file : List UInt8) (off : Nat) (new : List UInt8) :
    (writeAt file off new).length = max file.length (off + new.length) := by
  simp only [writeAt, length_append, length_take, length_replicate, length_drop]
  omega

/-- Copying into a buffer is writing into its string, if the bytes of the gap
    are zero. -/
theorem writeAt_bytes {d src : Mem} {n off k : Nat} (hz : ∀ b, n ≤ b → b < off → d b = 0) :
    writeAt (bytes d 0 n) off (bytes src 0 k) = bytes (copy d off src k) 0 (max n (off + k)) := by
  refine ext_getElem ?_ (fun i h1 h2 => ?_)
  · rw [length_writeAt, length_bytes, length_bytes, length_bytes]
  rw [getElem_bytes, Nat.zero_add]
  have hleft : ((bytes d 0 n ++ List.replicate (off - n) 0).take off).length = off := by
    rw [length_take, length_append, length_bytes, length_replicate]
    omega
  simp only [writeAt, length_bytes]
  by_cases hlo : i < off
  · -- In front of the write: the old bytes, or the gap.
    rw [copy_outside (Or.inl hlo),
      getElem_append_left (by rw [length_append, hleft, length_bytes]; omega),
      getElem_append_left (by rw [hleft]; exact hlo), getElem_take]
    by_cases hn : i < n
    · rw [getElem_append_left (by rw [length_bytes]; exact hn), getElem_bytes, Nat.zero_add]
    · rw [getElem_append_right (by rw [length_bytes]; omega), getElem_replicate,
        hz i (by omega) hlo]
  · by_cases hmid : i < off + k
    · rw [copy_inside ⟨by omega, hmid⟩,
        getElem_append_left (by rw [length_append, hleft, length_bytes]; omega),
        getElem_append_right (by rw [hleft]; omega), getElem_bytes, hleft, Nat.zero_add]
    · rw [copy_outside (Or.inr (by omega)),
        getElem_append_right (by rw [length_append, hleft, length_bytes]; omega),
        getElem_drop, getElem_bytes, length_append, hleft, length_bytes]
      congr 1
      omega

/-- With room for the bytes, the write is done in place. -/
theorem putBytes_spec (h : FileOk fd) (src : Mem) (hroom : offset + size ≤ fd.capacity) :
    FileOk (putBytes fd offset size src) ∧
      contents (putBytes fd offset size src) =
        writeAt (contents fd) offset (bytes src 0 size) := by
  have hmax : (putBytes fd offset size src).size = max fd.size (offset + size) := by
    simp only [putBytes]
    by_cases hgrow : offset + size > fd.size
    · rw [if_pos hgrow, Nat.max_eq_right (Nat.le_of_lt hgrow)]
    · rw [if_neg hgrow, Nat.max_eq_left (Nat.le_of_not_lt hgrow)]
  have hfits := h.fits
  refine ⟨⟨?_, h.least, h.whole, h.most, fun b h1 h2 => ?_⟩, ?_⟩
  · rw [hmax]
    exact Nat.max_le.mpr ⟨hfits, hroom⟩
  · rw [hmax] at h1
    have hout : (putBytes fd offset size src).data b = fd.data b :=
      copy_outside (Or.inr (by omega))
    rw [hout]
    exact h.zero b (by omega) h2
  · have hz : ∀ b, fd.size ≤ b → b < offset → fd.data b = 0 :=
      fun b h1 h2 => h.zero b h1 (by omega)
    rw [contents, contents, writeAt_bytes hz, hmax]
    rfl

/-- The new buffer holds the same string. -/
theorem fileOk_regrown (h : FileOk fd) (block : Mem) {newCap : Nat} (hle : fd.capacity ≤ newCap)
    (hwhole : newCap % 256 = 0) (hmost : newCap ≤ MAX_FILE) :
    FileOk { fd with
      data := copy (fill block 0 newCap 0) 0 fd.data fd.size, capacity := newCap } ∧
    contents { fd with
      data := copy (fill block 0 newCap 0) 0 fd.data fd.size, capacity := newCap } =
      contents fd := by
  have hfits := h.fits
  have hleast := h.least
  refine ⟨⟨Nat.le_trans hfits hle, Nat.le_trans hleast hle, hwhole, hmost,
    fun b (h1 : fd.size ≤ b) (h2 : b < newCap) => ?_⟩, ?_⟩
  · change copy _ _ _ _ b = 0
    rw [copy_outside (Or.inr (by omega)), fill_inside ⟨Nat.zero_le b, by omega⟩]
  · refine bytes_congr (fun b h1 (h2 : b < 0 + fd.size) => ?_)
    change copy _ _ _ _ b = _
    rw [copy_inside ⟨h1, h2⟩, Nat.sub_zero]

/-- The doubling ends at a capacity that holds the write. As long as the end
    is at most `2 ^ 31` nothing wraps around on the way. -/
theorem growCap_spec (hneeded : needed ≤ 2 ^ 31) (n cap : Nat) (hn : needed ≤ cap * 2 ^ n)
    (hwhole : cap % 256 = 0) :
    ∃ newCap, growCap needed n cap = some newCap ∧ needed ≤ newCap ∧ cap ≤ newCap ∧
      newCap % 256 = 0 ∧ (newCap = cap ∨ newCap < 2 * needed) := by
  fun_induction growCap needed n cap with
  | case1 cap hcap =>
    rw [pow_zero, Nat.mul_one] at hn
    exact absurd hcap (Nat.not_lt_of_le hn)
  | case2 cap hcap | case4 n cap hcap =>
    exact ⟨cap, rfl, Nat.le_of_not_lt hcap, Nat.le_refl _, hwhole, Or.inl rfl⟩
  | case3 n cap hcap ih =>
    have hwrap : u32 (cap * 2) = cap * 2 := u32_of_lt (by omega)
    rw [hwrap] at ih ⊢
    have hn' : needed ≤ cap * 2 * 2 ^ n := by
      rw [Nat.mul_assoc, Nat.mul_comm 2]
      exact hn
    rcases ih hn' (by omega) with ⟨newCap, hnew, hge, hle, hmod, hlt⟩
    refine ⟨newCap, hnew, hge, by omega, hmod, Or.inr ?_⟩
    rcases hlt with hlt | hlt
    · omega
    · exact hlt

theorem newCapacity_spec {capacity : Nat} (hneeded : needed ≤ 2 ^ 31) (hcap : 256 ≤ capacity)
    (hwhole : capacity % 256 = 0) (hgrow : capacity < needed) :
    ∃ newCap, newCapacity needed capacity = some newCap ∧ needed ≤ newCap ∧
      capacity ≤ newCap ∧ newCap % 256 = 0 ∧ newCap < 2 ^ 32 := by
  rw [newCapacity, if_neg (Nat.not_lt_of_le hcap)]
  rcases growCap_spec hneeded 32 capacity (by omega) hwhole with
    ⟨newCap, hnew, hge, hle, hmod, hlt⟩
  exact ⟨newCap, hnew, hge, hle, hmod, by omega⟩

/-- The heap can hand out a block of this size, in some run and with some
    answers of the page allocator. -/
def Grants (size : Nat) : Prop :=
  ∃ s phys h p, Heap.sessions.Reachable s ∧ Heap.kmalloc phys size s.heap = some (h, p) ∧ p ≠ 0

theorem grants_le (hsize : size + 7 < 2 ^ 32) (h : Grants size) : size ≤ MAX_FILE := by
  rcases h with ⟨s, phys, h', p, hs, hk, hp⟩
  rcases Heap.rep_reachable hs with ⟨a, ha⟩
  have hle := Heap.kmalloc_le ha.heap hk hp
  have halign : Heap.alignSize size = (size + 7) / 8 * 8 := by
    rw [Heap.alignSize, u32_of_lt (show size < 2 ^ 32 by omega), u32_of_lt hsize]
  rw [MAX_FILE]
  omega

/-- What a write does: it fails and changes nothing, which happens only if
    the file had to grow, or the bytes are replaced. -/
theorem ramfsWrite_spec (h : FileOk fd) (src : Mem) {heap : Option Mem} (hoff : offset < 2 ^ 32)
    (hend : offset + size ≤ 2 ^ 31 ∨ 2 ^ 32 ≤ offset + size)
    (hheap : ∀ newCap, newCapacity (offset + size) fd.capacity = some newCap → heap ≠ none →
      Grants newCap) :
    ∃ r, ramfsWrite heap fd offset size src = some r ∧
      ((r = none ∧ fd.size < offset + size) ∨
        ∃ fd', r = some fd' ∧ FileOk fd' ∧ size < 2 ^ 31 ∧
          contents fd' = writeAt (contents fd) offset (bytes src 0 size)) := by
  have hmost := h.most
  have hfits := h.fits
  have hmax : MAX_FILE < 2 ^ 31 := by decide
  unfold ramfsWrite
  by_cases hbig : size > 0xFFFFFFFF - offset
  · rw [if_pos hbig]
    exact ⟨none, rfl, Or.inl ⟨rfl, by omega⟩⟩
  rw [if_neg hbig]
  have hneeded : offset + size ≤ 2 ^ 31 := by omega
  by_cases hgrow : offset + size > fd.capacity
  · rw [if_pos hgrow]
    rcases newCapacity_spec hneeded h.least h.whole hgrow with
      ⟨newCap, hnew, hge, hle, hwhole, hlt⟩
    rw [hnew, Option.map_some]
    cases heap with
    | none => exact ⟨_, rfl, Or.inl ⟨rfl, by omega⟩⟩
    | some block =>
      have hmost' := grants_le (by omega) (hheap newCap hnew (Option.some_ne_none block))
      rcases fileOk_regrown h block hle hwhole hmost' with ⟨hok, hsame⟩
      rcases putBytes_spec hok src hge with ⟨hok', hcont⟩
      rw [hsame] at hcont
      exact ⟨_, rfl, Or.inr ⟨_, rfl, hok', by omega, hcont⟩⟩
  · rw [if_neg hgrow]
    rcases putBytes_spec h src (Nat.le_of_not_lt hgrow) with ⟨hok, hcont⟩
    exact ⟨_, rfl, Or.inr ⟨_, rfl, hok, by omega, hcont⟩⟩

end SysRust.Files
