import SysRust.Core.Initrd
import SysRust.Theory.Files.Buffer

/-!
# The Initial Ramdisk, Written and Read

The tool that writes the image and the kernel that reads it are two programs
that share only the format. Where a record begins depends on the sizes of all
records before it, so the parser is followed with its pointer: `Describes`
says what an entry of the table has to do with a file, one turn of the loop
establishes it for the record under the pointer, and leaves the pointer at the
next record.

Names are strings up to the first zero, so a name with a zero in it or with
more than 63 bytes does not survive; `Valid` leaves these out.

## Main definitions

* `Valid`: The files that an image can carry.
* `Describes`: An entry of the table stands for a file.
* `view`, `contents`: The files that the table stands for.
* `Booted`: The boot loader has put the image into memory.

## Theorems

* `readRecord_describes`: One turn of the loop.
* `readRecords_describes`: The whole loop.
* `image_round_trip`: The parser finds the files that the tool was given, and
  reading a node returns the bytes of its file.
* `find_round_trip`: A name is found in the parsed image as in the list.
-/

namespace SysRust.Initrd

open List

/-- A name that fits into its field, and contents that fit into the size. -/
structure Valid (f : HostFile) : Prop where
  name : f.basename.length ≤ 63
  zero : (0 : UInt8) ∉ f.basename
  data : f.data.length < 2 ^ 32

/-- The entry stands for the file. -/
structure Describes (m : Mem) (e : InitrdFile) (f : HostFile) : Prop where
  name : cString e.name = f.basename
  size : e.size = f.data.length
  data : Reads m e.data f.data

/-- The file that an entry stands for. -/
def view (m : Mem) (e : InitrdFile) : HostFile := ⟨cString e.name, bytes m e.data e.size⟩

/-- The files that the table stands for. -/
def contents (m : Mem) (s : Initrd) : List HostFile :=
  (List.range (getCount s)).map (fun i => view m (s.files i))

/-- The boot loader has loaded a module, and the first one is the image. -/
structure Booted (mb : MultibootInfo) (m : Mem) (image : List UInt8) : Prop where
  flags : mb.flags &&& MULTIBOOT_FLAG_MODS ≠ 0
  count : mb.modsCount ≠ 0
  image : Reads m (load m mb.modsAddr 4) image

/-! ### One record -/

theorem length_toLeBytes (v : Nat) : (toLeBytes v).length = 4 := rfl

variable {m : Mem}

/-- A number is read back from its bytes. -/
theorem load_toLeBytes {a v : Nat} (h : Reads m a (toLeBytes v)) (hv : v < 2 ^ 32) :
    load m a 4 = v := by
  have hdigit : ∀ i, i < 4 → (m (a + i)).toNat = v / 256 ^ i % 256 := by
    intro i hi
    have hget := h.getElem (show i < (toLeBytes v).length from hi)
    simp only [toLeBytes, getElem_map, getElem_range] at hget
    rw [hget, UInt8.toNat_ofNat']
  rw [load_digits m a 4 v hdigit]
  exact Nat.mod_eq_of_lt (by omega)

variable {name : List UInt8} {f : HostFile}

theorem nameField_eq (h : name.length ≤ 63) :
    nameField name = name ++ List.replicate (64 - name.length) 0 := by
  have hmin : min name.length (NAME_LEN - 1) = name.length := Nat.min_eq_left h
  rw [nameField, hmin, take_length]
  rfl

theorem length_nameField (h : name.length ≤ 63) : (nameField name).length = 64 := by
  rw [nameField_eq h, length_append, length_replicate]
  omega

/-- The last byte of the field is zero already, and the string in the field is
    the name. -/
theorem cString_nameField (h : name.length ≤ 63) (hz : (0 : UInt8) ∉ name) :
    cString ((nameField name).set (INITRD_NAME_LEN - 1) 0) = name := by
  have hne : ∀ c ∈ name, (c != 0) = true := by
    intro c hc
    rw [bne_iff_ne]
    intro h0
    exact hz (h0 ▸ hc)
  rw [nameField_eq h, INITRD_NAME_LEN, set_append_right _ _ h, set_replicate_self,
    cString, takeWhile_append_of_pos hne, takeWhile_replicate]
  simp only [bne_self_eq_false, Bool.false_eq_true, if_false, append_nil]

theorem length_record (h : Valid f) : (record f).length = 68 + f.data.length := by
  rw [record, length_append, length_append, length_nameField h.name, length_toLeBytes]
  omega

/-- One turn of the loop: the entry stands for the file whose record is at the
    pointer, and the contents end where the record ends. -/
theorem readRecord_describes {ptr : Nat} (hf : Valid f) (h : Reads m ptr (record f)) :
    Describes m (readRecord m ptr) f ∧
      (readRecord m ptr).data + (readRecord m ptr).size = ptr + (record f).length := by
  rw [record, reads_append, reads_append, length_nameField hf.name, length_toLeBytes] at h
  obtain ⟨hname, hlen, hdata⟩ := h
  have hsize : (readRecord m ptr).size = f.data.length := by
    rw [u32_of_lt hf.data] at hlen
    exact load_toLeBytes hlen hf.data
  have hfield : bytes m ptr INITRD_NAME_LEN = nameField f.basename := by
    rw [Reads, length_nameField hf.name] at hname
    exact hname
  refine ⟨⟨?_, hsize, hdata⟩, ?_⟩
  · rw [readRecord, hfield]
    exact cString_nameField hf.name hf.zero
  · rw [hsize, length_record hf]
    simp only [readRecord, INITRD_NAME_LEN]
    omega

/-! ### The loop -/

/-- The loop leaves the entries before its own alone. -/
theorem readRecords_below (m : Mem) (n : Nat) {i j : Nat} (ptr : Nat) (t : Nat → InitrdFile)
    (h : j < i) : readRecords m n i ptr t j = t j := by
  induction n generalizing i ptr t with
  | zero => rfl
  | succ n ih =>
    rw [readRecords, ih _ _ (by omega), Function.update_of_ne (by omega)]

/-- The whole loop, started at the record of the first file. -/
theorem readRecords_describes {fs : List HostFile} (hfs : ∀ f ∈ fs, Valid f) {ptr : Nat}
    (h : Reads m ptr (fs.flatMap record)) (i : Nat) (t : Nat → InitrdFile) (k : Nat)
    (hk : k < fs.length) : Describes m (readRecords m fs.length i ptr t (i + k)) fs[k] := by
  -- Along the files: the pointer moves on by one record for each.
  induction fs generalizing ptr i t k with
  | nil => exact absurd hk (Nat.not_lt_zero k)
  | cons f fs ih =>
    rw [flatMap_cons, reads_append] at h
    obtain ⟨hhead, hnext⟩ := readRecord_describes (hfs f mem_cons_self) h.1
    rw [length_cons, readRecords, hnext]
    cases k with
    | zero =>
      rw [readRecords_below _ _ _ _ (by omega), Nat.add_zero, Function.update_self]
      exact hhead
    | succ k =>
      rw [show i + (k + 1) = i + 1 + k by omega]
      exact ih (fun g hg => hfs g (mem_cons_of_mem f hg)) h.2 _ _ k
        (Nat.lt_of_succ_lt_succ hk)

/-! ### The parser -/

section Parsed

variable {files : List HostFile} {image : List UInt8} {mb : MultibootInfo}

/-- After parsing an image of the tool, the table has one entry for each
    file. -/
theorem init_describes (s : Initrd) (hlen : files.length ≤ 64) (hfs : ∀ f ∈ files, Valid f)
    (himage : mkinitrd files = some image) (hboot : Booted mb m image) :
    getCount (init mb m s) = files.length ∧
      ∀ k (hk : k < files.length), Describes m ((init mb m s).files k) files[k] := by
  have hsome : ¬ files.length < 1 := by
    intro h0
    rw [mkinitrd, if_pos h0] at himage
    cases himage
  rw [mkinitrd, if_neg hsome, Option.some.injEq] at himage
  have hreads := hboot.image
  rw [← himage, reads_append, length_toLeBytes, u32_of_lt (by omega)] at hreads
  have hcount : load m (load m mb.modsAddr 4) 4 = files.length :=
    load_toLeBytes hreads.1 (by omega)
  have hmods : ¬ (mb.flags &&& MULTIBOOT_FLAG_MODS = 0 ∨ mb.modsCount = 0) := by
    rintro (h0 | h0)
    · exact hboot.flags h0
    · exact hboot.count h0
  have hclamp : ¬ files.length > INITRD_MAX_FILES := by
    rw [INITRD_MAX_FILES]
    omega
  have hinit : init mb m s =
      { files := readRecords m files.length 0 (load m mb.modsAddr 4 + 4) s.files,
        fileCount := files.length } := by
    rw [init, if_neg hmods]
    simp only [hcount, if_neg hclamp]
  rw [hinit]
  refine ⟨rfl, fun k hk => ?_⟩
  have hd := readRecords_describes hfs hreads.2 0 s.files k hk
  rw [Nat.zero_add] at hd
  exact hd

/-- A table of entries that stand for the files stands for the list. -/
theorem contents_eq {s : Initrd} (hcount : getCount s = files.length)
    (hd : ∀ k (hk : k < files.length), Describes m (s.files k) files[k]) :
    contents m s = files := by
  refine ext_getElem ?_ (fun k h1 h2 => ?_)
  · rw [contents, length_map, length_range, hcount]
  · have hk := hd k h2
    simp only [contents, getElem_map, getElem_range, view]
    rw [hk.name, hk.size, hk.data]

/-- Reading through an entry that stands for a file. -/
theorem vfsRead_describes {e : InitrdFile} (hf : Valid f) (hd : Describes m e f) (i offset : Nat)
    {n : Nat} (hn : n < 2 ^ 32) :
    vfsRead m (mkNode i e) offset n =
      (i32 ((f.data.drop offset).take n).length, (f.data.drop offset).take n) := by
  have hwindow : bytes (window m e.data) 0 e.size = f.data := by
    rw [hd.size]
    refine Eq.trans (map_congr_left (fun j _ => ?_)) hd.data
    simp only [window, Nat.zero_add]
  have hsize : e.size < 2 ^ 32 := by
    rw [hd.size]
    exact hf.data
  have hread := Files.readBuffer_eq (window m e.data) offset hsize hn
  rw [hwindow] at hread
  exact hread

/-- The nodes are those of the files for which there was memory, in order. -/
theorem initVfs_eq (alloc : Nat → Bool) (s : Initrd) :
    initVfs alloc s =
      ((List.range (getCount s)).filter alloc).map (fun i => mkNode i (s.files i)) := by
  rw [initVfs, ← filterMap_eq_map, filterMap_filter]
  refine filterMap_congr (fun i hi => ?_)
  have hlt : ¬ i ≥ s.fileCount := Nat.not_le_of_lt (mem_range.mp hi)
  rw [getFile, if_neg hlt]
  rfl

/-- For every list of at most 64 files with names and contents that fit,
    wherever the boot loader puts the image: parsing it gives the list back.
    The nodes made from it carry the names, and reading a node puts the bytes
    from the offset on into the buffer, as many as were asked for or are left,
    and returns their number as a signed number. -/
theorem image_round_trip (files : List HostFile) (image : List UInt8) (mb : MultibootInfo)
    (m : Mem) (s : Initrd) (alloc : Nat → Bool) (hlen : files.length ≤ 64)
    (hfs : ∀ f ∈ files, f.basename.length ≤ 63 ∧ (0 : UInt8) ∉ f.basename ∧ f.data.length < 2 ^ 32)
    (himage : mkinitrd files = some image) (hboot : Booted mb m image) :
    contents m (init mb m s) = files ∧
    (initVfs alloc (init mb m s)).map (fun node => node.inode) =
      (List.range files.length).filter alloc ∧
    ∀ node ∈ initVfs alloc (init mb m s), ∃ f, files[node.inode]? = some f ∧
      node.name = f.basename ∧ node.size = f.data.length ∧
      ∀ offset < 2 ^ 32, ∀ n < 2 ^ 32,
        (vfsRead m node offset n).2 = (f.data.drop offset).take n ∧
        (vfsRead m node offset n).1 = i32 (min n (f.data.length - offset)) := by
  have hvalid : ∀ f ∈ files, Valid f := fun f hf => ⟨(hfs f hf).1, (hfs f hf).2.1, (hfs f hf).2.2⟩
  obtain ⟨hcount, hd⟩ := init_describes s hlen hvalid himage hboot
  refine ⟨contents_eq hcount hd, ?_, fun node hnode => ?_⟩
  · rw [initVfs_eq, hcount, map_map]
    exact map_id _
  · rw [initVfs_eq, hcount, mem_map] at hnode
    obtain ⟨i, hi, rfl⟩ := hnode
    have hlt : i < files.length := mem_range.mp (mem_filter.mp hi).1
    have hf := hvalid _ (getElem_mem hlt)
    have hdi := hd i hlt
    refine ⟨files[i], List.getElem?_eq_getElem hlt, ?_, hdi.size, fun offset _ n hn => ?_⟩
    · simp only [mkNode, hdi.name]
      exact take_of_length_le hf.name
    · rw [vfsRead_describes hf hdi i offset hn, length_take, length_drop]
      exact ⟨rfl, rfl⟩

/-- Looking a name up in the parsed image finds the first file of the list that
    has it, with its bytes. -/
theorem find_round_trip (files : List HostFile) (image : List UInt8) (mb : MultibootInfo) (m : Mem)
    (s : Initrd) (hlen : files.length ≤ 64)
    (hfs : ∀ f ∈ files, f.basename.length ≤ 63 ∧ (0 : UInt8) ∉ f.basename ∧ f.data.length < 2 ^ 32)
    (himage : mkinitrd files = some image) (hboot : Booted mb m image) (name : List UInt8) :
    (find (init mb m s) name).map (view m) = files.find? (fun f => f.basename == name) := by
  have hvalid : ∀ f ∈ files, Valid f := fun f hf => ⟨(hfs f hf).1, (hfs f hf).2.1, (hfs f hf).2.2⟩
  obtain ⟨hcount, hd⟩ := init_describes s hlen hvalid himage hboot
  rw [← contents_eq hcount hd, contents, find, List.find?_map, List.find?_map, Option.map_map]
  rfl

end Parsed

/-- A boot with this image, loaded at 2 MiB, and with the table of modules at
    4 KiB. -/
def bootMemory (image : List UInt8) : Mem :=
  store (fun a => image.getD (a - 0x200000) 0) 0x1000 4 0x200000

def bootInfo : MultibootInfo := { flags := 8, modsCount := 1, modsAddr := 0x1000 }

theorem booted_bootMemory (image : List UInt8) : Booted bootInfo (bootMemory image) image := by
  refine ⟨by decide, by decide, ?_⟩
  have hptr : load (bootMemory image) bootInfo.modsAddr 4 = 0x200000 := load_store_self _ _ _ _
  rw [hptr]
  refine ext_getElem (length_bytes _ _ _) (fun i h1 h2 => ?_)
  rw [getElem_bytes, bootMemory, store_outside (by omega), Nat.add_sub_cancel_left,
    getD_eq_getElem?_getD, List.getElem?_eq_getElem h2, Option.getD_some]

/-- Two files of one name: the first one is found. -/
theorem find_round_trip_twice : ∃ image, mkinitrd [⟨[97], [1]⟩, ⟨[97], [2]⟩] = some image ∧
    (find (init bootInfo (bootMemory image) ⟨fun _ => ⟨[], 0, 0⟩, 0⟩) [97]).map
      (view (bootMemory image)) = some ⟨[97], [1]⟩ :=
  ⟨_, rfl, find_round_trip [⟨[97], [1]⟩, ⟨[97], [2]⟩] _ _ _ _ (by decide) (by decide) rfl
    (booted_bootMemory _) _⟩

/-- Two files, one of them empty, and a read that runs over the end. -/
theorem image_round_trip_pair :
    let files : List HostFile := [⟨[0x61, 0x62], [1, 2, 3, 4, 5]⟩, ⟨[0x63], []⟩]
    ∃ image, mkinitrd files = some image ∧
      contents (bootMemory image) (init bootInfo (bootMemory image) ⟨fun _ => ⟨[], 0, 0⟩, 0⟩) =
        files ∧
      ∃ node ∈ initVfs (fun _ => true)
          (init bootInfo (bootMemory image) ⟨fun _ => ⟨[], 0, 0⟩, 0⟩),
        vfsRead (bootMemory image) node 3 0xFFFFFFFE = (2, [4, 5]) := by
  intro files
  refine ⟨_, rfl, ?_⟩
  have h := image_round_trip files _ bootInfo _ ⟨fun _ => ⟨[], 0, 0⟩, 0⟩ (fun _ => true)
    (by decide) (by decide) rfl (booted_bootMemory _)
  obtain ⟨hcontents, hinodes, hnodes⟩ := h
  refine ⟨hcontents, ?_⟩
  have hzero : (0 : Nat) ∈ (List.range files.length).filter (fun _ => true) := by decide
  rw [← hinodes, mem_map] at hzero
  obtain ⟨node, hnode, hinode⟩ := hzero
  obtain ⟨f, hf, _, _, hread⟩ := hnodes node hnode
  rw [hinode] at hf
  have hf0 : f = ⟨[0x61, 0x62], [1, 2, 3, 4, 5]⟩ := (Option.some.inj hf).symm
  obtain ⟨hbytes, hvalue⟩ := hread 3 (by decide) 0xFFFFFFFE (by decide)
  refine ⟨node, hnode, Prod.ext ?_ ?_⟩
  · rw [hvalue, hf0]
    decide
  · rw [hbytes, hf0]
    rfl

end SysRust.Initrd
