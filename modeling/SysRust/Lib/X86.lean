import Mathlib.Algebra.GroupWithZero.Nat
import Mathlib.Data.Fin.Basic
import Mathlib.Logic.Function.Basic
import SysRust.Lib.Memory

/-!
# A Part of x86-32

Registers, flags and memory of a 32-bit x86 processor, and the instructions
a simple compiler needs: moves, stack operations, integer arithmetic,
comparisons and near jumps. Instructions are fetched as bytes from the same
memory that data is in, and decoded from there; code that is overwritten is
overwritten for good.

A step is partial. It fails on an instruction outside of the part, on a
division that raises an exception, and on a four-byte access that runs over
the end of the address space. The flags are `none` after an instruction that
leaves one of them undefined, and a conditional instruction fails then, so a
program that runs does not depend on undefined flags.

Only the forms of addressing without an index register are decoded.

## Main definitions

* `Cpu`: Registers, instruction pointer, flags and memory.
* `Rm`, `Instr`: Operands and instructions.
* `decode`: From bytes to an instruction and its length.
* `exec`, `step`, `run`: Execution.
* `Reaches`: Some number of steps leads from one state to another.
* `Loaded`: The memory holds these bytes.
* `Encodes`: The bytes are an encoding of the instruction.

## Theorems

* `Reaches.trans`: Runs are put together.
* `loaded_append`: Loading one piece of code behind another.
* `step_of_encodes`: A step executes the instruction whose encoding is loaded.
* `imm32_leBytes`: Reading an immediate back.
* `cond_e`, `cond_l`, ...: The conditions behind a comparison.
* `divide_cdq`: A division behind `cdq`.
-/

namespace SysRust.X86

open List

/-- The general registers by their numbers. -/
abbrev Reg := Fin 8

scoped instance neZero8 : NeZero 8 := ⟨by decide⟩

scoped instance neZero16 : NeZero 16 := ⟨by decide⟩

def eax : Reg := 0
def ecx : Reg := 1
def edx : Reg := 2
def ebx : Reg := 3
def esp : Reg := 4
def ebp : Reg := 5
def esi : Reg := 6
def edi : Reg := 7

structure Flags where
  zf : Bool
  sf : Bool
  cf : Bool
  of : Bool
deriving DecidableEq

structure Cpu where
  reg : Reg → BitVec 32
  eip : BitVec 32
  flags : Option Flags
  mem : Mem

/-- A register, or the memory at a displacement from a register or from zero. -/
inductive Rm where
  | reg (r : Reg)
  | mem (base : Option Reg) (disp : BitVec 32)
deriving DecidableEq

/-- The two-operand operations; `cmp` is a subtraction that keeps its result
    to itself. -/
inductive Alu where
  | add
  | or
  | and
  | sub
  | xor
  | cmp
deriving DecidableEq

inductive Instr where
  | alu (op : Alu) (dst : Rm) (src : Reg)
  | aluImm (op : Alu) (dst : Rm) (imm : BitVec 32)
  | mov (dst : Rm) (src : Reg)
  | load (dst : Reg) (src : Rm)
  | movByte (dst : Rm) (src : Reg)
  | movzxByte (dst : Reg) (src : Rm)
  | lea (dst : Reg) (base : Option Reg) (disp : BitVec 32)
  | movImm (dst : Reg) (imm : BitVec 32)
  | push (src : Reg)
  | pushImm (imm : BitVec 32)
  | pop (dst : Reg)
  | imul (dst : Reg) (src : Rm)
  | not (dst : Rm)
  | neg (dst : Rm)
  | idiv (src : Rm)
  | shl (dst : Rm)
  | shr (dst : Rm)
  | cdq
  | setcc (cc : Fin 16) (dst : Rm)
  | jmp (rel : BitVec 32)
  | jcc (cc : Fin 16) (rel : BitVec 32)
  | call (rel : BitVec 32)
  | callRm (target : Rm)
  | ret
deriving DecidableEq

/-! ### Decoding -/

/-- A little-endian immediate. -/
def imm32 (a b c d : UInt8) : BitVec 32 :=
  BitVec.ofNat 32 (a.toNat + 256 * (b.toNat + 256 * (c.toNat + 256 * d.toNat)))

/-- The four bytes of a word, least significant first. -/
def leBytes (v : BitVec 32) : List UInt8 :=
  [UInt8.ofNat v.toNat, UInt8.ofNat (v.toNat / 256), UInt8.ofNat (v.toNat / 65536),
    UInt8.ofNat (v.toNat / 16777216)]

/-- An eight-bit displacement. -/
def disp8 (a : UInt8) : BitVec 32 := a.toBitVec.signExtend 32

/-- A register from three bits of a byte. -/
def regBits (n : Nat) : Reg := ⟨n % 8, Nat.mod_lt _ (by decide)⟩

/-- The register field, the operand and the length of a ModR/M byte and what
    belongs to it. -/
def modrm : List UInt8 → Option (Reg × Rm × Nat)
  | [] => none
  | b :: rest =>
    let reg := regBits (b.toNat / 8)
    let rm := regBits b.toNat
    match b.toNat / 64 with
    | 3 => some (reg, .reg rm, 1)
    | 0 =>
      if rm = 5 then
        match rest with
        | d0 :: d1 :: d2 :: d3 :: _ => some (reg, .mem none (imm32 d0 d1 d2 d3), 5)
        | _ => none
      else if rm = 4 then
        match rest with
        | 0x24 :: _ => some (reg, .mem (some esp) 0, 2)
        | _ => none
      else some (reg, .mem (some rm) 0, 1)
    | 1 =>
      if rm = 4 then
        match rest with
        | 0x24 :: d :: _ => some (reg, .mem (some esp) (disp8 d), 3)
        | _ => none
      else
        match rest with
        | d :: _ => some (reg, .mem (some rm) (disp8 d), 2)
        | _ => none
    | _ =>
      if rm = 4 then
        match rest with
        | 0x24 :: d0 :: d1 :: d2 :: d3 :: _ =>
          some (reg, .mem (some esp) (imm32 d0 d1 d2 d3), 6)
        | _ => none
      else
        match rest with
        | d0 :: d1 :: d2 :: d3 :: _ => some (reg, .mem (some rm) (imm32 d0 d1 d2 d3), 5)
        | _ => none

/-- An instruction with a ModR/M byte behind `n` bytes of opcode. -/
def withRm (n : Nat) (rest : List UInt8) (f : Reg → Rm → Option Instr) : Option (Instr × Nat) :=
  match modrm rest with
  | none => none
  | some (r, rm, k) => (f r rm).map (fun i => (i, n + k))

/-- An instruction with a four-byte immediate behind one byte of opcode. -/
def withImm (n : Nat) (rest : List UInt8) (f : BitVec 32 → Instr) : Option (Instr × Nat) :=
  match rest with
  | d0 :: d1 :: d2 :: d3 :: _ => some (f (imm32 d0 d1 d2 d3), n + 4)
  | _ => none

/-- The operation of opcode `81` by its digit. -/
def aluDigit (r : Reg) : Option Alu :=
  match r.val with
  | 0 => some .add
  | 1 => some .or
  | 4 => some .and
  | 5 => some .sub
  | 6 => some .xor
  | 7 => some .cmp
  | _ => none

/-- Opcodes behind `0F`. -/
def decode0F : List UInt8 → Option (Instr × Nat)
  | [] => none
  | b :: rest =>
    if b.toNat / 16 = 8 then
      withImm 2 rest (.jcc ⟨b.toNat % 16, Nat.mod_lt _ (by decide)⟩)
    else if b.toNat / 16 = 9 then
      withRm 2 rest (fun _ rm => some (.setcc ⟨b.toNat % 16, Nat.mod_lt _ (by decide)⟩ rm))
    else if b = 0xAF then withRm 2 rest (fun r rm => some (.imul r rm))
    else if b = 0xB6 then withRm 2 rest (fun r rm => some (.movzxByte r rm))
    else none

/-- The operations of opcode `F7`. -/
def decodeF7 (r : Reg) (rm : Rm) : Option Instr :=
  match r.val with
  | 2 => some (.not rm)
  | 3 => some (.neg rm)
  | 7 => some (.idiv rm)
  | _ => none

/-- The operations of opcode `D3`: shifts by `cl`. -/
def decodeD3 (r : Reg) (rm : Rm) : Option Instr :=
  match r.val with
  | 4 => some (.shl rm)
  | 5 => some (.shr rm)
  | _ => none

/-- The instruction at the front, and its length. -/
def decode : List UInt8 → Option (Instr × Nat)
  | [] => none
  | b :: rest =>
    match b.toNat with
    | 0x01 => withRm 1 rest (fun r rm => some (.alu .add rm r))
    | 0x09 => withRm 1 rest (fun r rm => some (.alu .or rm r))
    | 0x0F => decode0F rest
    | 0x21 => withRm 1 rest (fun r rm => some (.alu .and rm r))
    | 0x29 => withRm 1 rest (fun r rm => some (.alu .sub rm r))
    | 0x31 => withRm 1 rest (fun r rm => some (.alu .xor rm r))
    | 0x39 => withRm 1 rest (fun r rm => some (.alu .cmp rm r))
    | 0x3D => withImm 1 rest (.aluImm .cmp (.reg eax))
    | 0x68 => withImm 1 rest .pushImm
    | 0x81 =>
      match modrm rest with
      | none => none
      | some (r, rm, k) =>
        match aluDigit r with
        | none => none
        | some op => withImm (1 + k) (rest.drop k) (.aluImm op rm)
    | 0x88 => withRm 1 rest (fun r rm => some (.movByte rm r))
    | 0x89 => withRm 1 rest (fun r rm => some (.mov rm r))
    | 0x8B => withRm 1 rest (fun r rm => some (.load r rm))
    | 0x8D =>
      withRm 1 rest (fun r rm =>
        match rm with
        | .reg _ => none
        | .mem base disp => some (.lea r base disp))
    | 0x99 => some (.cdq, 1)
    | 0xC3 => some (.ret, 1)
    | 0xD3 => withRm 1 rest decodeD3
    | 0xE8 => withImm 1 rest .call
    | 0xE9 => withImm 1 rest .jmp
    | 0xF7 => withRm 1 rest decodeF7
    | 0xFF => withRm 1 rest (fun r rm => if r = 2 then some (.callRm rm) else none)
    | n =>
      if n / 8 = 10 then some (.push (regBits n), 1)
      else if n / 8 = 11 then some (.pop (regBits n), 1)
      else if n / 8 = 23 then withImm 1 rest (.movImm (regBits n))
      else none

/-! ### Execution -/

namespace Cpu

def set (s : Cpu) (r : Reg) (v : BitVec 32) : Cpu := { s with reg := Function.update s.reg r v }

/-- The address of a memory operand. -/
def addr (s : Cpu) (base : Option Reg) (disp : BitVec 32) : Nat :=
  match base with
  | none => disp.toNat
  | some r => (s.reg r + disp).toNat

/-- The four bytes at an address, unless they run over the end. -/
def read (s : Cpu) (a : Nat) : Option (BitVec 32) :=
  if a + 4 ≤ 2 ^ 32 then some (BitVec.ofNat 32 (SysRust.load s.mem a 4)) else none

def write (s : Cpu) (a : Nat) (v : BitVec 32) : Option Cpu :=
  if a + 4 ≤ 2 ^ 32 then some { s with mem := store s.mem a 4 v.toNat } else none

def get (s : Cpu) : Rm → Option (BitVec 32)
  | .reg r => some (s.reg r)
  | .mem base disp => s.read (s.addr base disp)

def put (s : Cpu) : Rm → BitVec 32 → Option Cpu
  | .reg r, v => some (s.set r v)
  | .mem base disp, v => s.write (s.addr base disp) v

/-- A byte operand. Of the byte registers only the low ones are known. -/
def getByte (s : Cpu) : Rm → Option UInt8
  | .reg r => if r.val < 4 then some (UInt8.ofNat (s.reg r).toNat) else none
  | .mem base disp => some (s.mem (s.addr base disp))

def putByte (s : Cpu) : Rm → UInt8 → Option Cpu
  | .reg r, v =>
    if r.val < 4 then
      some (s.set r (BitVec.ofNat 32 ((s.reg r).toNat / 256 * 256 + v.toNat)))
    else none
  | .mem base disp, v => some { s with mem := store s.mem (s.addr base disp) 1 v.toNat }

def push (s : Cpu) (v : BitVec 32) : Option Cpu :=
  (s.set esp (s.reg esp - 4)).write (s.reg esp - 4).toNat v

/-- The word at the top of the stack, and the state without it. -/
def pop (s : Cpu) : Option (BitVec 32 × Cpu) :=
  (s.read (s.reg esp).toNat).map (fun v => (v, s.set esp (s.reg esp + 4)))

end Cpu

/-- The flags of a result whose carry and overflow are known. -/
def resultFlags (r : BitVec 32) (cf of : Bool) : Flags where
  zf := r == 0
  sf := r.msb
  cf := cf
  of := of

/-- The flags of a subtraction. -/
def subFlags (a b : BitVec 32) : Flags :=
  resultFlags (a - b) (a.ult b) (a.msb != b.msb && (a - b).msb != a.msb)

/-- The result and the flags of a two-operand operation. -/
def Alu.apply (a b : BitVec 32) : Alu → BitVec 32 × Flags
  | .add => (a + b, resultFlags (a + b) (decide (2 ^ 32 ≤ a.toNat + b.toNat))
      (a.msb == b.msb && (a + b).msb != a.msb))
  | .or => (a ||| b, resultFlags (a ||| b) false false)
  | .and => (a &&& b, resultFlags (a &&& b) false false)
  | .sub => (a - b, subFlags a b)
  | .xor => (a ^^^ b, resultFlags (a ^^^ b) false false)
  | .cmp => (a, subFlags a b)

/-- Whether a condition holds. The parity flag is not kept. -/
def condition (cc : Fin 16) (f : Flags) : Option Bool :=
  match cc.val with
  | 0 => some f.of
  | 1 => some (!f.of)
  | 2 => some f.cf
  | 3 => some (!f.cf)
  | 4 => some f.zf
  | 5 => some (!f.zf)
  | 6 => some (f.cf || f.zf)
  | 7 => some (!(f.cf || f.zf))
  | 8 => some f.sf
  | 9 => some (!f.sf)
  | 12 => some (f.sf != f.of)
  | 13 => some (f.sf == f.of)
  | 14 => some (f.zf || f.sf != f.of)
  | 15 => some (!f.zf && f.sf == f.of)
  | _ => none

/-- Signed division of `edx:eax`. It raises an exception for a zero divisor
    and for a quotient that does not fit. -/
def divide (s : Cpu) (d : BitVec 32) : Option Cpu :=
  let n : Int := (s.reg edx).toInt * 2 ^ 32 + (s.reg eax).toNat
  let q := n.tdiv d.toInt
  if d = 0 then none
  else if q < -2 ^ 31 ∨ 2 ^ 31 ≤ q then none
  else
    some { (s.set eax (BitVec.ofInt 32 q)).set edx (BitVec.ofInt 32 (n.tmod d.toInt)) with
      flags := none }

/-- Shifts use the low five bits of the count, and a shift by zero leaves the
    flags alone. -/
def shift (s : Cpu) (dst : Rm) (f : BitVec 32 → Nat → BitVec 32) : Option Cpu :=
  let n := (s.reg ecx).toNat % 32
  (s.get dst).bind (fun a =>
    (s.put dst (f a n)).map (fun t => { t with flags := if n = 0 then s.flags else none }))

/-- Execute an instruction; the instruction pointer is behind it already. -/
def exec (s : Cpu) : Instr → Option Cpu
  | .alu op dst src =>
    (s.get dst).bind (fun a =>
      let r := op.apply a (s.reg src)
      (if op = .cmp then some s else s.put dst r.1).map (fun t => { t with flags := some r.2 }))
  | .aluImm op dst imm =>
    (s.get dst).bind (fun a =>
      let r := op.apply a imm
      (if op = .cmp then some s else s.put dst r.1).map (fun t => { t with flags := some r.2 }))
  | .mov dst src => s.put dst (s.reg src)
  | .load dst src => (s.get src).map (s.set dst)
  | .movByte dst src => (s.getByte (.reg src)).bind (s.putByte dst)
  | .movzxByte dst src => (s.getByte src).map (fun b => s.set dst (BitVec.ofNat 32 b.toNat))
  | .lea dst base disp => some (s.set dst (BitVec.ofNat 32 (s.addr base disp)))
  | .movImm dst imm => some (s.set dst imm)
  | .push src => s.push (s.reg src)
  | .pushImm imm => s.push imm
  | .pop dst => s.pop.map (fun p => p.2.set dst p.1)
  | .imul dst src =>
    (s.get src).map (fun b => { s.set dst (s.reg dst * b) with flags := none })
  | .not dst => (s.get dst).bind (fun a => s.put dst (~~~a))
  | .neg dst =>
    (s.get dst).bind (fun a =>
      (s.put dst (-a)).map (fun t => { t with flags := some (subFlags 0 a) }))
  | .idiv src => (s.get src).bind (divide s)
  | .shl dst => shift s dst (fun a n => a <<< n)
  | .shr dst => shift s dst (fun a n => a >>> n)
  | .cdq => some (s.set edx (if (s.reg eax).msb then BitVec.allOnes 32 else 0))
  | .setcc cc dst =>
    (s.flags.bind (condition cc)).bind (fun b => s.putByte dst (if b then 1 else 0))
  | .jmp rel => some { s with eip := s.eip + rel }
  | .jcc cc rel =>
    (s.flags.bind (condition cc)).map (fun b => if b then { s with eip := s.eip + rel } else s)
  | .call rel => (s.push s.eip).map (fun t => { t with eip := s.eip + rel })
  | .callRm target =>
    (s.get target).bind (fun a => (s.push s.eip).map (fun t => { t with eip := a }))
  | .ret => s.pop.map (fun p => { p.2 with eip := p.1 })

/-- Fetch, decode and execute. -/
def step (s : Cpu) : Option Cpu :=
  match decode (bytes s.mem s.eip.toNat 16) with
  | none => none
  | some (i, n) => exec { s with eip := s.eip + BitVec.ofNat 32 n } i

/-- A number of steps. -/
def run : Nat → Cpu → Option Cpu
  | 0, s => some s
  | n + 1, s => (step s).bind (run n)

/-- Some number of steps leads from `s` to `t`. -/
def Reaches (s t : Cpu) : Prop := ∃ n, run n s = some t

variable {n a : Nat} {s t u : Cpu} {bs : List UInt8} {m : Mem}

/-- A machine that is stuck stays so. -/
theorem run_none {m : Nat} (h : run m s = none) (hle : m ≤ n) : run n s = none := by
  induction m generalizing n s with
  | zero => cases h
  | succ k ih =>
    obtain ⟨j, rfl⟩ := Nat.exists_eq_add_of_le' (Nat.le_trans (Nat.succ_pos k) hle)
    rw [run] at h ⊢
    cases hs : step s with
    | none => rfl
    | some t =>
      rw [hs, Option.bind_some] at h
      exact ih h (by omega)

theorem run_add {m : Nat} (h1 : run m s = some t) (h2 : run n t = some u) :
    run (m + n) s = some u := by
  induction m generalizing s with
  | zero =>
    simp only [run, Option.some.injEq] at h1
    rw [h1, Nat.zero_add]
    exact h2
  | succ k ih =>
    rw [show k + 1 + n = k + n + 1 by omega]
    simp only [run] at h1 ⊢
    rcases Option.bind_eq_some_iff.mp h1 with ⟨s', hs, hrest⟩
    rw [hs]
    exact ih hrest

theorem Reaches.refl (s : Cpu) : Reaches s s := ⟨0, rfl⟩

theorem Reaches.trans (h1 : Reaches s t) (h2 : Reaches t u) : Reaches s u := by
  rcases h1 with ⟨m, hm⟩
  rcases h2 with ⟨n, hn⟩
  exact ⟨m + n, run_add hm hn⟩

theorem Reaches.of_step (h : step s = some t) : Reaches s t :=
  ⟨1, by simp only [run, h, Option.bind_some]⟩

/-! ### Code in memory -/

/-- The bytes stand in memory at `a`. -/
def Loaded (m : Mem) (a : Nat) (bs : List UInt8) : Prop :=
  ∀ i (h : i < bs.length), m (a + i) = bs[i]

theorem loaded_append {cs : List UInt8} :
    Loaded m a (bs ++ cs) ↔ Loaded m a bs ∧ Loaded m (a + bs.length) cs := by
  constructor
  · intro h
    refine ⟨fun i hi => ?_, fun i hi => ?_⟩
    · rw [h i (by rw [length_append]; omega), getElem_append_left hi]
    · have hlen : bs.length + i < (bs ++ cs).length := by rw [length_append]; omega
      rw [show a + bs.length + i = a + (bs.length + i) by omega, h _ hlen,
        getElem_append_right (by omega)]
      congr 1
      omega
  · rintro ⟨h1, h2⟩ i hi
    by_cases hlt : i < bs.length
    · rw [getElem_append_left hlt]
      exact h1 i hlt
    · rw [getElem_append_right (by omega)]
      have hsub : i - bs.length < cs.length := by
        rw [length_append] at hi
        omega
      have h := h2 (i - bs.length) hsub
      rwa [show a + bs.length + (i - bs.length) = a + i by omega] at h

/-- Code that nobody writes to stays loaded. -/
theorem Loaded.congr {m' : Mem} (h : Loaded m a bs) (hm : AgreeOn m' m a (a + bs.length)) :
    Loaded m' a bs :=
  fun i hi => (hm (a + i) (by omega) (by omega)).trans (h i hi)

/-- What is loaded is what a fetch reads. -/
theorem Loaded.bytes (h : Loaded m a bs) (hn : bs.length ≤ n) :
    ∃ rest, SysRust.bytes m a n = bs ++ rest := by
  refine ⟨(SysRust.bytes m a n).drop bs.length, ?_⟩
  have htake : (SysRust.bytes m a n).take bs.length = bs := by
    refine ext_getElem ?_ (fun i h1 h2 => ?_)
    · rw [length_take, length_bytes]
      omega
    · rw [getElem_take, getElem_bytes]
      exact h i h2
  conv => rhs; rw [← htake]
  rw [length_take, length_bytes, Nat.min_eq_left hn, take_append_drop]

/-- The bytes are an encoding of the instruction, whatever comes behind. -/
def Encodes (bs : List UInt8) (i : Instr) : Prop :=
  bs.length ≤ 16 ∧ ∀ rest, decode (bs ++ rest) = some (i, bs.length)

/-- A step executes the instruction whose encoding is loaded. -/
theorem step_of_encodes {i : Instr} (he : Encodes bs i) (hl : Loaded s.mem s.eip.toNat bs) :
    step s = exec { s with eip := s.eip + BitVec.ofNat 32 bs.length } i := by
  rcases hl.bytes he.1 with ⟨rest, hrest⟩
  unfold step
  rw [hrest, he.2 rest]

theorem imm32_leBytes (v : BitVec 32) :
    imm32 (UInt8.ofNat v.toNat) (UInt8.ofNat (v.toNat / 256)) (UInt8.ofNat (v.toNat / 65536))
      (UInt8.ofNat (v.toNat / 16777216)) = v := by
  apply BitVec.eq_of_toNat_eq
  simp only [imm32, UInt8.toNat_ofNat', BitVec.toNat_ofNat]
  omega

/-! ### Comparisons and divisions -/

theorem toInt_bounds (x : BitVec 32) : -2 ^ 31 ≤ x.toInt ∧ x.toInt < 2 ^ 31 :=
  ⟨x.le_toInt, x.toInt_lt⟩

/-- The signed comparison that `sf` and `of` of a subtraction stand for. -/
theorem subFlags_lt (a b : BitVec 32) :
    ((subFlags a b).sf != (subFlags a b).of) = decide (a.toInt < b.toInt) := by
  have ha := toInt_bounds a
  have hb := toInt_bounds b
  have hsub : (a - b).toInt = (a.toInt - b.toInt).bmod (2 ^ 32) := BitVec.toInt_sub
  rw [Int.bmod_def] at hsub
  simp only [subFlags, resultFlags, BitVec.msb_eq_toInt]
  generalize (a - b).toInt = d at *
  generalize a.toInt = x at *
  generalize b.toInt = y at *
  by_cases h1 : x < 0 <;> by_cases h2 : y < 0 <;> by_cases h3 : d < 0 <;>
    simp [h1, h2, h3] <;> omega

theorem subFlags_zf (a b : BitVec 32) : (subFlags a b).zf = decide (a = b) := by
  refine decide_eq_decide.mpr ⟨fun h => ?_, fun h => ?_⟩
  · exact (BitVec.sub_eq_iff_eq_add.mp h).trans (BitVec.zero_add b)
  · exact BitVec.sub_eq_iff_eq_add.mpr (h.trans (BitVec.zero_add b).symm)

theorem cond_e (a b : BitVec 32) : condition 4 (subFlags a b) = some (decide (a = b)) :=
  congrArg some (subFlags_zf a b)

theorem cond_ne (a b : BitVec 32) : condition 5 (subFlags a b) = some (decide (a ≠ b)) := by
  rw [show condition 5 (subFlags a b) = some (!(subFlags a b).zf) from rfl, subFlags_zf, decide_not]

theorem cond_l (a b : BitVec 32) :
    condition 12 (subFlags a b) = some (decide (a.toInt < b.toInt)) :=
  congrArg some (subFlags_lt a b)

theorem subFlags_ge (a b : BitVec 32) :
    ((subFlags a b).sf == (subFlags a b).of) = decide (b.toInt ≤ a.toInt) := by
  have hlt := subFlags_lt a b
  rw [bne, Bool.not_eq_eq_eq_not, ← decide_not] at hlt
  rw [hlt]
  simp only [Int.not_lt]

theorem cond_ge (a b : BitVec 32) :
    condition 13 (subFlags a b) = some (decide (b.toInt ≤ a.toInt)) :=
  congrArg some (subFlags_ge a b)

theorem cond_le (a b : BitVec 32) :
    condition 14 (subFlags a b) = some (decide (a.toInt ≤ b.toInt)) := by
  rw [show condition 14 (subFlags a b) =
    some ((subFlags a b).zf || ((subFlags a b).sf != (subFlags a b).of)) from rfl, subFlags_zf,
    subFlags_lt, ← Bool.decide_or]
  simp only [← BitVec.toInt_inj, Option.some.injEq, decide_eq_decide]
  omega

theorem cond_g (a b : BitVec 32) :
    condition 15 (subFlags a b) = some (decide (b.toInt < a.toInt)) := by
  rw [show condition 15 (subFlags a b) =
    some (!(subFlags a b).zf && ((subFlags a b).sf == (subFlags a b).of)) from rfl, subFlags_ge,
    subFlags_zf, ← decide_not, ← Bool.decide_and]
  simp only [← BitVec.toInt_inj, Option.some.injEq, decide_eq_decide]
  omega

/-- A quotient of two words fits, except for the one of `-2^31` by `-1`. -/
theorem tdiv_bounds (x y : BitVec 32) (hy : y ≠ 0)
    (h : ¬(x = BitVec.intMin 32 ∧ y = BitVec.allOnes 32)) :
    -2 ^ 31 ≤ x.toInt.tdiv y.toInt ∧ x.toInt.tdiv y.toInt < 2 ^ 31 := by
  have hx := toInt_bounds x
  have habs : (x.toInt.tdiv y.toInt).natAbs = x.toInt.natAbs / y.toInt.natAbs :=
    Int.natAbs_tdiv _ _
  have hle : x.toInt.natAbs / y.toInt.natAbs ≤ x.toInt.natAbs := Nat.div_le_self _ _
  by_cases hmin : x = BitVec.intMin 32
  · -- The divisor is not -1, so the quotient is at most half of 2^31.
    have hy1 : y.toInt ≠ 0 := fun h0 => hy (BitVec.toInt_inj.mp (h0.trans rfl))
    have hy2 : y.toInt ≠ -1 := fun h0 => h ⟨hmin, BitVec.toInt_inj.mp (h0.trans rfl)⟩
    by_cases hone : y.toInt = 1
    · rw [hone, Int.tdiv_one]
      exact hx
    · have hhalf : x.toInt.natAbs / y.toInt.natAbs ≤ x.toInt.natAbs / 2 :=
        Nat.div_le_div_left (by omega) (by omega)
      omega
  · have hne : x.toInt ≠ -2 ^ 31 := fun h0 => hmin (BitVec.toInt_inj.mp (h0.trans rfl))
    omega

/-- The dividend that `cdq` makes is the signed value of `eax`. -/
theorem dividend_cdq (x : BitVec 32) :
    (if x.msb then BitVec.allOnes 32 else 0 : BitVec 32).toInt * 2 ^ 32 + (x.toNat : Int) =
      x.toInt := by
  have hi := BitVec.toInt_eq_msb_cond x
  cases hm : x.msb
  · rw [hm] at hi
    simp only [Bool.false_eq_true, if_false] at hi ⊢
    rw [show (0 : BitVec 32).toInt = 0 from rfl]
    omega
  · rw [hm] at hi
    simp only [if_true] at hi ⊢
    rw [show (BitVec.allOnes 32).toInt = -1 from rfl]
    omega

/-- A division behind `cdq`. -/
theorem divide_cdq {y : BitVec 32}
    (hd : s.reg edx = if (s.reg eax).msb then BitVec.allOnes 32 else 0) (hy : y ≠ 0)
    (h : ¬(s.reg eax = BitVec.intMin 32 ∧ y = BitVec.allOnes 32)) :
    divide s y = some { (s.set eax (BitVec.ofInt 32 ((s.reg eax).toInt.tdiv y.toInt))).set edx
      (BitVec.ofInt 32 ((s.reg eax).toInt.tmod y.toInt)) with flags := none } := by
  have hq := tdiv_bounds (s.reg eax) y hy h
  simp only [divide]
  rw [hd, dividend_cdq, if_neg hy, if_neg (by omega)]

end SysRust.X86
