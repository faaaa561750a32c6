import Mathlib.Data.Fintype.Basic
import Mathlib.Tactic.FinCases
import SysRust.Lib.X86

/-!
# Assembling Instructions

An assembler for the instructions of `Lib.X86`: one encoding for each of
them, which the decoder reads back. With it a piece of code is a list of
instructions, and what a program does is stated about that list; the bytes
only come in where the list is laid out in memory.

Code between jumps that does not write to memory can be executed without
looking at memory at all. `execs` does so, and `reaches_execs` says that the
processor does the same.

## Main definitions

* `encodeRm`, `encode`, `assemble`: From instructions to bytes.
* `At`: The instructions stand in memory where execution is.
* `Runs`: Running code that is not written to.
* `Stacked`, `slotAt`, `wordAt`: Words on the stack.
* `Quiet`: The instruction neither jumps nor writes to memory.
* `execs`: Execute instructions one after the other.

## Theorems

* `encodes_encode`: The decoder reads an encoding back.
* `At.append`, `At.move`: Code in two parts, and going from one to the next.
* `At.step`, `At.reaches`: Executing the first instruction.
* `Runs.load`, `Runs.store`: Reading and writing a word on the stack.
* `reaches_execs`: Executing quiet instructions.
-/

namespace SysRust.X86

open List Option

/-! ### Registers -/

@[simp] theorem Cpu.reg_set_self (s : Cpu) (r : Reg) (v : BitVec 32) : (s.set r v).reg r = v := by
  simp only [Cpu.set, Function.update_self]

/-! ### Encodings -/

/-- A ModR/M byte. -/
def modrmByte (md : Nat) (reg rm : Reg) : UInt8 := UInt8.ofNat (64 * md + 8 * reg.val + rm.val)

/-- An operand beside the register or digit `reg`. Memory behind `esp` and
    `ebp` always has a displacement of four bytes, behind the other
    registers only if it is not zero. -/
def encodeRm (reg : Reg) : Rm → List UInt8
  | .reg r => [modrmByte 3 reg r]
  | .mem none d => modrmByte 0 reg 5 :: leBytes d
  | .mem (some r) d =>
    if r = esp then modrmByte 2 reg 4 :: 0x24 :: leBytes d
    else if d = 0 ∧ r ≠ ebp then [modrmByte 0 reg r]
    else modrmByte 2 reg r :: leBytes d

theorem encodeRm_ebp (reg : Reg) (d : BitVec 32) :
    encodeRm reg (.mem (some ebp) d) = modrmByte 2 reg ebp :: leBytes d := by
  simp only [encodeRm]
  rw [if_neg (by decide), if_neg (fun h => h.2 rfl)]

namespace Alu

def opcode : Alu → UInt8
  | .add => 0x01
  | .or => 0x09
  | .and => 0x21
  | .sub => 0x29
  | .xor => 0x31
  | .cmp => 0x39

def digit : Alu → Reg
  | .add => 0
  | .or => 1
  | .and => 4
  | .sub => 5
  | .xor => 6
  | .cmp => 7

end Alu

/-- An encoding of the instruction. -/
def encode : Instr → List UInt8
  | .alu op dst src => op.opcode :: encodeRm src dst
  | .aluImm op dst imm =>
    if op = .cmp ∧ dst = .reg eax then 0x3D :: leBytes imm
    else 0x81 :: (encodeRm op.digit dst ++ leBytes imm)
  | .mov dst src => 0x89 :: encodeRm src dst
  | .load dst src => 0x8B :: encodeRm dst src
  | .movByte dst src => 0x88 :: encodeRm src dst
  | .movzxByte dst src => 0x0F :: 0xB6 :: encodeRm dst src
  | .lea dst base disp => 0x8D :: encodeRm dst (.mem base disp)
  | .movImm dst imm => UInt8.ofNat (0xB8 + dst.val) :: leBytes imm
  | .push src => [UInt8.ofNat (0x50 + src.val)]
  | .pushImm imm => 0x68 :: leBytes imm
  | .pop dst => [UInt8.ofNat (0x58 + dst.val)]
  | .imul dst src => 0x0F :: 0xAF :: encodeRm dst src
  | .not dst => 0xF7 :: encodeRm 2 dst
  | .neg dst => 0xF7 :: encodeRm 3 dst
  | .idiv src => 0xF7 :: encodeRm 7 src
  | .shl dst => 0xD3 :: encodeRm 4 dst
  | .shr dst => 0xD3 :: encodeRm 5 dst
  | .cdq => [0x99]
  | .setcc cc dst => 0x0F :: UInt8.ofNat (0x90 + cc.val) :: encodeRm 0 dst
  | .jmp rel => 0xE9 :: leBytes rel
  | .jcc cc rel => 0x0F :: UInt8.ofNat (0x80 + cc.val) :: leBytes rel
  | .call rel => 0xE8 :: leBytes rel
  | .callRm target => 0xFF :: encodeRm 2 target
  | .ret => [0xC3]

/-- The bytes of a list of instructions. -/
def assemble (is : List Instr) : List UInt8 := is.flatMap encode

@[simp] theorem assemble_nil : assemble [] = [] := rfl

@[simp] theorem assemble_cons (i : Instr) (is : List Instr) :
    assemble (i :: is) = encode i ++ assemble is := rfl

@[simp] theorem assemble_append (is js : List Instr) :
    assemble (is ++ js) = assemble is ++ assemble js := flatMap_append

theorem assemble_singleton (i : Instr) : assemble [i] = encode i := by
  rw [assemble_cons, assemble_nil, append_nil]

theorem toNat_modrmByte (md : Nat) (reg rm : Reg) (h : md < 4) :
    (modrmByte md reg rm).toNat = 64 * md + 8 * reg.val + rm.val := by
  simp only [modrmByte, UInt8.toNat_ofNat']
  omega

theorem regBits_eq {n : Nat} {r : Reg} (h : n % 8 = r.val) : regBits n = r := Fin.ext h

@[simp] theorem length_leBytes (v : BitVec 32) : (leBytes v).length = 4 := rfl

/-- A ModR/M byte and what belongs to it are read back. -/
theorem modrm_encodeRm (reg : Reg) (rm : Rm) (rest : List UInt8) :
    modrm (encodeRm reg rm ++ rest) = some (reg, rm, (encodeRm reg rm).length) := by
  have hreg (md : Nat) (r : Reg) (h : md < 4) :
      regBits ((modrmByte md reg r).toNat / 8) = reg := by
    refine regBits_eq ?_
    rw [toNat_modrmByte md reg r h]
    omega
  have hrm (md : Nat) (r : Reg) (h : md < 4) : regBits (modrmByte md reg r).toNat = r := by
    refine regBits_eq ?_
    rw [toNat_modrmByte md reg r h]
    omega
  have hmd (md : Nat) (r : Reg) (h : md < 4) : (modrmByte md reg r).toNat / 64 = md := by
    rw [toNat_modrmByte md reg r h]
    omega
  cases rm with
  | reg r =>
    simp only [encodeRm, cons_append, nil_append, modrm]
    rw [hreg 3 r (by decide), hrm 3 r (by decide), hmd 3 r (by decide)]
    rfl
  | mem base d =>
    cases base with
    | none =>
      simp only [encodeRm, cons_append, leBytes, nil_append, modrm]
      rw [hreg 0 5 (by decide), hrm 0 5 (by decide), hmd 0 5 (by decide)]
      simp only [↓reduceIte, imm32_leBytes]
      rfl
    | some r =>
      simp only [encodeRm]
      by_cases hsp : r = esp
      · rw [if_pos hsp]
        simp only [cons_append, leBytes, nil_append, modrm]
        rw [hreg 2 4 (by decide), hrm 2 4 (by decide), hmd 2 4 (by decide), hsp]
        simp only [↓reduceIte, imm32_leBytes]
        rfl
      · rw [if_neg hsp]
        have h4 : r ≠ 4 := hsp
        by_cases hz : d = 0 ∧ r ≠ ebp
        · rw [if_pos hz]
          have h5 : r ≠ 5 := hz.2
          simp only [cons_append, nil_append, modrm]
          rw [hreg 0 r (by decide), hrm 0 r (by decide), hmd 0 r (by decide), hz.1]
          simp only [if_neg h5, if_neg h4]
          rfl
        · rw [if_neg hz]
          simp only [cons_append, leBytes, nil_append, modrm]
          rw [hreg 2 r (by decide), hrm 2 r (by decide), hmd 2 r (by decide)]
          simp only [if_neg h4, imm32_leBytes]
          rfl

theorem withRm_encodeRm (n : Nat) (reg : Reg) (rm : Rm) (rest : List UInt8)
    (f : Reg → Rm → Option Instr) :
    withRm n (encodeRm reg rm ++ rest) f =
      (f reg rm).map (fun i => (i, n + (encodeRm reg rm).length)) := by
  simp only [withRm, modrm_encodeRm]

theorem withImm_leBytes (n : Nat) (v : BitVec 32) (rest : List UInt8) (f : BitVec 32 → Instr) :
    withImm n (leBytes v ++ rest) f = some (f v, n + 4) := by
  simp only [withImm, leBytes, cons_append, nil_append, imm32_leBytes]

theorem length_encodeRm_le (reg : Reg) (rm : Rm) : (encodeRm reg rm).length ≤ 6 := by
  cases rm with
  | reg r => simp only [encodeRm, length_cons, length_nil]; omega
  | mem base d =>
    cases base with
    | none => simp only [encodeRm, length_cons, length_leBytes]; omega
    | some r =>
      simp only [encodeRm]
      split_ifs
      all_goals simp only [length_cons, length_nil, length_leBytes]; omega

theorem length_encode_le (i : Instr) : (encode i).length ≤ 16 := by
  cases i
  case aluImm op dst imm =>
      have h := length_encodeRm_le op.digit dst
      simp only [encode]
      split_ifs
      all_goals simp only [length_cons, length_append, length_leBytes]; omega
  all_goals
    simp only [encode, length_cons, length_nil, length_leBytes]
    grind [length_encodeRm_le]

/-- Opcodes whose low bits are a register. -/
theorem toNat_opcode (k : Nat) (r : Fin n) (h : k + n ≤ 256) :
    (UInt8.ofNat (k + r.val)).toNat = k + r.val := by
  simp only [UInt8.toNat_ofNat']
  omega

theorem decode_encode (i : Instr) (rest : List UInt8) :
    decode (encode i ++ rest) = some (i, (encode i).length) := by
  cases i with
  | alu op dst src =>
    cases op <;>
      simp only [encode, Alu.opcode, cons_append, decode, UInt8.reduceToNat,
        withRm_encodeRm, map_some, length_cons, Nat.add_comm]
  | aluImm op dst imm =>
    simp only [encode]
    by_cases h : op = .cmp ∧ dst = .reg eax
    · rw [if_pos h, h.1, h.2]
      simp only [cons_append, decode, UInt8.reduceToNat, withImm_leBytes, length_cons,
        length_leBytes, Nat.add_comm]
    · rw [if_neg h]
      have hdigit : aluDigit op.digit = some op := by cases op <;> rfl
      simp only [cons_append, append_assoc, decode, UInt8.reduceToNat,
        modrm_encodeRm, hdigit, drop_left, withImm_leBytes, length_cons,
        length_append, length_leBytes]
      rw [show 1 + (encodeRm op.digit dst).length + 4 =
        (encodeRm op.digit dst).length + 4 + 1 by omega]
  | movzxByte dst src =>
    simp only [encode, cons_append, decode, UInt8.reduceToNat, decode0F]
    rw [if_neg (by decide), if_neg (by decide), if_neg (by decide), if_pos trivial]
    simp only [withRm_encodeRm, map_some, length_cons]
    rw [Nat.add_comm 2]
  | movImm dst imm =>
    fin_cases dst <;> exact withImm_leBytes 1 imm rest (.movImm _)
  | push src => fin_cases src <;> rfl
  | pushImm v | jmp v | call v =>
    simp only [encode, cons_append, decode, UInt8.reduceToNat, withImm_leBytes,
      length_cons, length_leBytes]
  | pop dst => fin_cases dst <;> rfl
  | imul dst src =>
    simp only [encode, cons_append, decode, UInt8.reduceToNat, decode0F]
    rw [if_neg (by decide), if_neg (by decide), if_pos trivial]
    simp only [withRm_encodeRm, map_some, length_cons]
    rw [Nat.add_comm 2]
  | cdq => rfl
  | setcc cc dst =>
    have hb := toNat_opcode 0x90 cc (by decide)
    simp only [encode, cons_append, decode, UInt8.reduceToNat, decode0F, hb]
    rw [if_neg (by omega), if_pos (by omega)]
    simp only [withRm_encodeRm, map_some, length_cons]
    rw [Nat.add_comm 2, show (⟨(0x90 + cc.val) % 16, _⟩ : Fin 16) = cc from Fin.ext (by
      show (_ : Nat) % 16 = _
      omega)]
  | jcc cc rel =>
    have hb := toNat_opcode 0x80 cc (by decide)
    simp only [encode, cons_append, decode, UInt8.reduceToNat, decode0F, hb]
    rw [if_pos (by omega)]
    simp only [withImm_leBytes, length_cons, length_leBytes]
    rw [show (⟨(0x80 + cc.val) % 16, _⟩ : Fin 16) = cc from Fin.ext (by
      show (_ : Nat) % 16 = _
      omega)]
  | callRm target =>
    simp only [encode, cons_append, decode, UInt8.reduceToNat, withRm_encodeRm,
      ↓reduceIte, map_some, length_cons, Nat.add_comm]
  | ret => rfl
  | _ =>
    simp only [encode, cons_append, decode, UInt8.reduceToNat, withRm_encodeRm,
      map_some, length_cons, Nat.add_comm]
    try rfl

/-- The decoder reads an encoding back. -/
theorem encodes_encode (i : Instr) : Encodes (encode i) i :=
  ⟨length_encode_le i, decode_encode i⟩

/-! ### Code where execution is -/

/-- The number of bytes of some instructions. -/
def size (is : List Instr) : Nat := (assemble is).length

@[simp] theorem size_nil : size [] = 0 := rfl

@[simp] theorem size_cons (i : Instr) (is : List Instr) :
    size (i :: is) = (encode i).length + size is := by
  simp only [size, assemble_cons, length_append]

@[simp] theorem size_append (is js : List Instr) : size (is ++ js) = size is + size js := by
  simp only [size, assemble_append, length_append]

/-- Execution is in front of these instructions, which end before the end of
    the address space. -/
def At (s : Cpu) (is : List Instr) : Prop :=
  Loaded s.mem s.eip.toNat (assemble is) ∧ s.eip.toNat + size is < 2 ^ 32

/-- Behind the first `n` bytes. -/
def Cpu.skip (s : Cpu) (n : Nat) : Cpu := { s with eip := s.eip + BitVec.ofNat 32 n }

theorem toNat_add_ofNat {a : BitVec 32} {n : Nat} (h : a.toNat + n < 2 ^ 32) :
    (a + BitVec.ofNat 32 n).toNat = a.toNat + n := by
  rw [BitVec.toNat_add, BitVec.toNat_ofNat]
  omega

variable {is : List Instr} {s t : Cpu} {i : Instr} {dst : Rm}

theorem At.left {js : List Instr} (h : At s (is ++ js)) : At s is := by
  rcases h with ⟨hl, hs⟩
  rw [assemble_append] at hl
  rw [size_append] at hs
  exact ⟨(loaded_append.mp hl).1, by omega⟩

/-- Behind the first part of the code, which nobody has written to. -/
theorem At.right {p q : List Instr} (h : At s (p ++ q))
    (heip : t.eip = s.eip + BitVec.ofNat 32 (size p))
    (hmem : AgreeOn t.mem s.mem s.eip.toNat (s.eip.toNat + size (p ++ q))) : At t q := by
  rcases h with ⟨hl, hs⟩
  rw [assemble_append] at hl
  rw [size_append] at hs hmem
  have heip' : t.eip.toNat = s.eip.toNat + size p := by
    rw [heip]
    exact toNat_add_ofNat (by omega)
  refine ⟨?_, by omega⟩
  rw [heip']
  refine (loaded_append.mp hl).2.congr (fun b h1 h2 => hmem b (by omega) ?_)
  simp only [size] at h1 h2 ⊢
  omega

/-- The first instruction is executed. -/
theorem At.step (h : At s (i :: is)) (he : exec (s.skip (encode i).length) i = some t) :
    step s = some t := by
  have hl : Loaded s.mem s.eip.toNat (encode i) :=
    (loaded_append.mp (by simpa only [assemble_cons] using h.1)).1
  exact (step_of_encodes (encodes_encode i) hl).trans he

theorem At.reaches (h : At s (i :: is)) (he : exec (s.skip (encode i).length) i = some t) :
    Reaches s t :=
  Reaches.of_step (h.step he)

/-! ### Code that is not written to -/

/-- Running the code in `[lo, hi)` has led from `r` to `s`, in front of its
    last instructions. -/
structure Runs (lo hi : Nat) (r s : Cpu) (is : List Instr) : Prop where
  reaches : Reaches r s
  code : At s is
  start : lo ≤ s.eip.toNat
  stop : s.eip.toNat + size is = hi

variable {r : Cpu} {lo hi n k : Nat}

/-- One instruction, if it does not write to the code. -/
theorem Runs.next (h : Runs lo hi r s (i :: is))
    (he : exec (s.skip (encode i).length) i = some t)
    (heip : t.eip = s.eip + BitVec.ofNat 32 (encode i).length) (hmem : AgreeOn t.mem s.mem lo hi) :
    Runs lo hi r t is := by
  have hstart := h.start
  have hstop := h.stop
  have hfit := h.code.2
  rw [size_cons] at hstop hfit
  have hto : t.eip.toNat = s.eip.toNat + (encode i).length := by
    rw [heip]
    exact toNat_add_ofNat (by omega)
  refine ⟨h.reaches.trans (h.code.reaches he), ?_, by omega, by omega⟩
  refine At.right (p := [i]) h.code ?_ (agreeOn_mono hmem hstart ?_)
  · rw [heip, size_cons, size_nil, Nat.add_zero]
  · rw [List.cons_append, List.nil_append, size_cons]
    omega

/-- There are `n` words on the stack, and they are not in the code. -/
def Stacked (lo hi n : Nat) (s : Cpu) : Prop :=
  (s.reg esp).toNat + 4 * n ≤ 2 ^ 32 ∧
    (hi ≤ (s.reg esp).toNat ∨ (s.reg esp).toNat + 4 * n ≤ lo)

/-- Where the word with the number `k` is. -/
def slotAt (s : Cpu) (k : Nat) : Nat := (s.reg esp).toNat + 4 * k

/-- The word with the number `k`. -/
def wordAt (s : Cpu) (k : Nat) : Nat := load s.mem (slotAt s k) 4

theorem Stacked.addr (h : Stacked lo hi n s) (hk : k < n) :
    (s.reg esp + BitVec.ofNat 32 (k * 4)).toNat = slotAt s k ∧ slotAt s k + 4 ≤ 2 ^ 32 := by
  have hfit := h.1
  rw [toNat_add_ofNat (by omega), slotAt]
  omega

theorem Runs.load {x : Reg} (h : Runs lo hi r s
      (.load x (.mem (some esp) (BitVec.ofNat 32 (k * 4))) :: is))
    (hs : Stacked lo hi n s) (hk : k < n) :
    Runs lo hi r ((s.skip 7).set x (BitVec.ofNat 32 (wordAt s k))) is := by
  refine h.next ?_ rfl (agreeOn_refl _ _ _)
  show Option.map _ (Cpu.read _ (s.reg esp + _).toNat) = _
  rw [(hs.addr hk).1, Cpu.read, if_pos (hs.addr hk).2]
  rfl

theorem Runs.store {x : Reg} (h : Runs lo hi r s
      (.mov (.mem (some esp) (BitVec.ofNat 32 (k * 4))) x :: is))
    (hs : Stacked lo hi n s) (hk : k < n) :
    Runs lo hi r
      { s.skip 7 with mem := SysRust.store s.mem (slotAt s k) 4 (s.reg x).toNat } is := by
  refine h.next ?_ rfl (fun _ _ _ => store_outside ?_)
  · show Cpu.write _ (s.reg esp + _).toNat _ = _
    rw [(hs.addr hk).1, Cpu.write, if_pos (hs.addr hk).2]
    rfl
  · have hapart := hs.2
    rw [slotAt]
    omega

/-! ### Quiet code -/

def Rm.isReg : Rm → Bool
  | .reg _ => true
  | .mem _ _ => false

/-- The instruction neither jumps nor writes to memory. -/
def Instr.quiet : Instr → Bool
  | .alu _ dst _ => dst.isReg
  | .aluImm _ dst _ => dst.isReg
  | .mov dst _ => dst.isReg
  | .load _ _ => true
  | .movByte dst _ => dst.isReg
  | .movzxByte _ _ => true
  | .lea _ _ _ => true
  | .movImm _ _ => true
  | .push _ => false
  | .pushImm _ => false
  | .pop _ => true
  | .imul _ _ => true
  | .not dst => dst.isReg
  | .neg dst => dst.isReg
  | .idiv _ => true
  | .shl dst => dst.isReg
  | .shr dst => dst.isReg
  | .cdq => true
  | .setcc _ dst => dst.isReg
  | .jmp _ => false
  | .jcc _ _ => false
  | .call _ => false
  | .callRm _ => false
  | .ret => false

/-- The two states differ in registers and flags only. -/
def Beside (s t : Cpu) : Prop := t.mem = s.mem ∧ t.eip = s.eip

theorem Cpu.beside_put {v : BitVec 32} (hd : dst.isReg = true) (h : s.put dst v = some t) :
    Beside s t := by
  cases dst with
  | mem base d => exact absurd hd Bool.false_ne_true
  | reg r =>
    simp only [Cpu.put, some.injEq] at h
    rw [← h]
    exact ⟨rfl, rfl⟩

theorem Cpu.beside_putByte {v : UInt8} (hd : dst.isReg = true) (h : s.putByte dst v = some t) :
    Beside s t := by
  cases dst with
  | mem base d => exact absurd hd Bool.false_ne_true
  | reg r =>
    simp only [Cpu.putByte] at h
    split_ifs at h
    rw [← some.inj h]
    exact ⟨rfl, rfl⟩

theorem Beside.flags (f : Option Flags) (h : Beside s t) : Beside s { t with flags := f } := h

theorem beside_alu {op : Alu} {b : BitVec 32} (hd : dst.isReg = true)
    (h : (s.get dst).bind (fun a =>
      let r := op.apply a b
      (if op = .cmp then some s else s.put dst r.1).map
        (fun t => { t with flags := some r.2 })) = some t) : Beside s t := by
  rcases bind_eq_some_iff.mp h with ⟨a, -, h⟩
  rcases map_eq_some_iff.mp h with ⟨u, hu, rfl⟩
  refine Beside.flags _ ?_
  split_ifs at hu
  · rw [← some.inj hu]
    exact ⟨rfl, rfl⟩
  · exact Cpu.beside_put hd hu

theorem beside_shift {f : BitVec 32 → Nat → BitVec 32} (hd : dst.isReg = true)
    (h : shift s dst f = some t) : Beside s t := by
  rcases bind_eq_some_iff.mp h with ⟨a, -, h⟩
  rcases map_eq_some_iff.mp h with ⟨u, hu, rfl⟩
  exact Beside.flags _ (Cpu.beside_put hd hu)

theorem beside_divide {d : BitVec 32} (h : divide s d = some t) : Beside s t := by
  simp only [divide] at h
  split_ifs at h
  rw [← some.inj h]
  exact ⟨rfl, rfl⟩

/-- A quiet instruction changes registers and flags only. -/
theorem beside_exec (hq : i.quiet = true) (h : exec s i = some t) : Beside s t := by
  cases i <;> simp only [Instr.quiet, Bool.false_eq_true] at hq <;> simp only [exec] at h
  case alu | aluImm => exact beside_alu hq h
  case mov dst src => exact Cpu.beside_put hq h
  case movByte | setcc =>
      rcases bind_eq_some_iff.mp h with ⟨b, -, h⟩
      exact Cpu.beside_putByte hq h
  case not dst =>
      rcases bind_eq_some_iff.mp h with ⟨a, -, h⟩
      exact Cpu.beside_put hq h
  case neg dst =>
      rcases bind_eq_some_iff.mp h with ⟨a, -, h⟩
      rcases map_eq_some_iff.mp h with ⟨u, hu, rfl⟩
      exact Beside.flags _ (Cpu.beside_put hq hu)
  case idiv src =>
      rcases bind_eq_some_iff.mp h with ⟨a, -, h⟩
      exact beside_divide h
  case shl | shr => exact beside_shift hq h
  case pop dst =>
      rcases map_eq_some_iff.mp h with ⟨p, hp, rfl⟩
      rcases map_eq_some_iff.mp hp with ⟨v, -, rfl⟩
      exact ⟨rfl, rfl⟩
  case load | movzxByte | imul =>
      rcases map_eq_some_iff.mp h with ⟨v, -, rfl⟩
      exact ⟨rfl, rfl⟩
  all_goals
    rw [← some.inj h]
    exact ⟨rfl, rfl⟩

/-- Execute instructions one after the other. -/
def execs : List Instr → Cpu → Option Cpu
  | [], s => some s
  | i :: is, s => (exec (s.skip (encode i).length) i).bind (execs is)

theorem execs_append (is js : List Instr) (s : Cpu) :
    execs (is ++ js) s = (execs is s).bind (execs js) := by
  induction is generalizing s with
  | nil => rfl
  | cons i is ih =>
    simp only [cons_append, execs, bind_assoc]
    exact congrArg (Option.bind _) (funext ih)

/-- The processor executes quiet instructions as `execs` does. -/
theorem reaches_execs (hq : ∀ i ∈ is, i.quiet = true) (h : At s is) (he : execs is s = some t) :
    Reaches s t ∧ t.mem = s.mem ∧ t.eip = s.eip + BitVec.ofNat 32 (size is) := by
  induction is generalizing s with
  | nil =>
    rw [← some.inj he]
    refine ⟨Reaches.refl s, rfl, ?_⟩
    simp only [size_nil, BitVec.add_zero]
  | cons i is ih =>
    rcases bind_eq_some_iff.mp he with ⟨u, hu, hrest⟩
    have hside := beside_exec (hq i mem_cons_self) hu
    have heip : u.eip = s.eip + BitVec.ofNat 32 (encode i).length := hside.2
    have hat : At u is := by
      refine At.right (p := [i]) h ?_ (fun b _ _ => congrFun hside.1 b)
      rw [heip, size_cons, size_nil, Nat.add_zero]
    rcases ih (fun j hj => hq j (mem_cons_of_mem i hj)) hat hrest with ⟨hr, hm, he'⟩
    refine ⟨(h.reaches hu).trans hr, hm.trans hside.1, ?_⟩
    rw [he', heip, size_cons, BitVec.add_assoc, BitVec.ofNat_add]

end SysRust.X86
