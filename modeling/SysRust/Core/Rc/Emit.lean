import Mathlib.Data.List.Basic

/-!
# The Code Emitter

`rc/emit.rs` writes x86-32 instructions into a buffer of 64 KB. The buffer
is the list of the bytes written so far, and `CODE_POS` is its length. A
byte that does not fit is dropped, and the drop is remembered. Forward jumps
are written with a placeholder that `patchDword` fills in.

The `i32` and `u32` values of the source are words: the instructions carry
their 32 bits, and sums wrap around as they do in the source.

## Main definitions

* `Emitter`: The code buffer.
* `byte`, `dword`, `patchDword`: Writing into it.
* `pushReg`, `movRegImm`, `loadLocal`, ...: One instruction each.
* `jmpPlaceholder`, `jccPlaceholder`: Jumps whose target is not known yet.
* `disp`: The displacement of a jump.
-/

namespace SysRust.Rc

def CC_LOAD_BASE : BitVec 32 := 0x00A00000
def CC_CODE_MAX : Nat := 65536

def REG_EAX : Nat := 0
def REG_ECX : Nat := 1
def REG_EDX : Nat := 2
def REG_ESP : Nat := 4
def REG_EBP : Nat := 5

def CC_E : Nat := 0x04
def CC_NE : Nat := 0x05
def CC_L : Nat := 0x0C
def CC_GE : Nat := 0x0D
def CC_LE : Nat := 0x0E
def CC_G : Nat := 0x0F

/-- The code buffer with the bytes written so far, the address the code is
    made for, and whether a byte has been dropped. -/
structure Emitter where
  code : List UInt8
  base : BitVec 32
  overflow : Bool
deriving DecidableEq

/-- The low byte of a word. -/
def toU8 (v : BitVec 32) : UInt8 := UInt8.ofNat v.toNat

/-- The displacement that leads from the end of an instruction to a target. -/
def disp (next target : Nat) : BitVec 32 := BitVec.ofNat 32 target - BitVec.ofNat 32 next

namespace Emitter

/-- An empty buffer. -/
def init (base : BitVec 32) : Emitter where
  code := []
  base := base
  overflow := false

def pos (e : Emitter) : Nat := e.code.length

def byte (b : UInt8) (e : Emitter) : Emitter :=
  if e.code.length < CC_CODE_MAX then { e with code := e.code ++ [b] }
  else { e with overflow := true }

/-- A run of bytes, one after the other. -/
def bytes : List UInt8 → Emitter → Emitter
  | [], e => e
  | b :: bs, e => bytes bs (byte b e)

/-- The bytes of a little-endian word. -/
def word (d : BitVec 32) : List UInt8 :=
  [toU8 (d &&& 0xFF), toU8 ((d >>> 8) &&& 0xFF), toU8 ((d >>> 16) &&& 0xFF),
    toU8 ((d >>> 24) &&& 0xFF)]

def dword (d : BitVec 32) (e : Emitter) : Emitter := bytes (word d) e

/-- Overwrite a word for backpatching. -/
def patchDword (p : Nat) (val : BitVec 32) (e : Emitter) : Emitter :=
  if p + 4 ≤ CC_CODE_MAX then
    let code := e.code.set p (toU8 (val &&& 0xFF))
    let code := code.set (p + 1) (toU8 ((val >>> 8) &&& 0xFF))
    let code := code.set (p + 2) (toU8 ((val >>> 16) &&& 0xFF))
    let code := code.set (p + 3) (toU8 ((val >>> 24) &&& 0xFF))
    { e with code := code }
  else e

/-- A ModR/M byte with two registers. -/
def modRR (reg rm : Nat) : UInt8 := UInt8.ofNat (0xC0 ||| (reg <<< 3) ||| rm)

def pushImm (val : BitVec 32) (e : Emitter) : Emitter := dword val (byte 0x68 e)

def pushReg (reg : Nat) (e : Emitter) : Emitter := byte (UInt8.ofNat (0x50 + reg)) e

def popReg (reg : Nat) (e : Emitter) : Emitter := byte (UInt8.ofNat (0x58 + reg)) e

def movRegImm (reg : Nat) (val : BitVec 32) (e : Emitter) : Emitter :=
  dword val (byte (UInt8.ofNat (0xB8 + reg)) e)

def movRegReg (dst src : Nat) (e : Emitter) : Emitter := bytes [0x89, modRR src dst] e

/-- `mov reg, [ebp+offset]`. -/
def loadLocal (reg : Nat) (offset : BitVec 32) (e : Emitter) : Emitter :=
  dword offset (bytes [0x8B, UInt8.ofNat (0x85 ||| (reg <<< 3))] e)

/-- `mov [ebp+offset], reg`. -/
def storeLocal (offset : BitVec 32) (reg : Nat) (e : Emitter) : Emitter :=
  dword offset (bytes [0x89, UInt8.ofNat (0x85 ||| (reg <<< 3))] e)

/-- `lea eax, [ebp+offset]`. -/
def leaEax (offset : BitVec 32) (e : Emitter) : Emitter := dword offset (bytes [0x8D, 0x85] e)

def loadGlobal (reg : Nat) (addr : BitVec 32) (e : Emitter) : Emitter :=
  dword addr (bytes [0x8B, UInt8.ofNat (0x05 ||| (reg <<< 3))] e)

def storeGlobal (addr : BitVec 32) (reg : Nat) (e : Emitter) : Emitter :=
  dword addr (bytes [0x89, UInt8.ofNat (0x05 ||| (reg <<< 3))] e)

/-- The operand bytes of a register and the memory another one points to:
    `ebp` and `esp` need longer forms. -/
def indirect (reg ptr : Nat) : List UInt8 :=
  if ptr = REG_EBP then [UInt8.ofNat (0x45 ||| (reg <<< 3)), 0x00]
  else if ptr = REG_ESP then [UInt8.ofNat (0x04 ||| (reg <<< 3)), 0x24]
  else [UInt8.ofNat ((reg <<< 3) ||| ptr)]

def loadIndirect (dst src : Nat) (e : Emitter) : Emitter := bytes (0x8B :: indirect dst src) e

def loadIndirectByte (dst src : Nat) (e : Emitter) : Emitter :=
  bytes (0x0F :: 0xB6 :: indirect dst src) e

def storeIndirectByte (dst src : Nat) (e : Emitter) : Emitter :=
  bytes (0x88 :: indirect src dst) e

def storeIndirect (dst src : Nat) (e : Emitter) : Emitter := bytes (0x89 :: indirect src dst) e

def add (dst src : Nat) (e : Emitter) : Emitter := bytes [0x01, modRR src dst] e

def sub (dst src : Nat) (e : Emitter) : Emitter := bytes [0x29, modRR src dst] e

def imul (dst src : Nat) (e : Emitter) : Emitter := bytes [0x0F, 0xAF, modRR dst src] e

/-- `cdq; idiv ecx`. -/
def idivEcx (e : Emitter) : Emitter := bytes [0x99, 0xF7, 0xF9] e

def neg (reg : Nat) (e : Emitter) : Emitter := bytes [0xF7, UInt8.ofNat (0xD8 ||| reg)] e

def not (reg : Nat) (e : Emitter) : Emitter := bytes [0xF7, UInt8.ofNat (0xD0 ||| reg)] e

def and (dst src : Nat) (e : Emitter) : Emitter := bytes [0x21, modRR src dst] e

def or (dst src : Nat) (e : Emitter) : Emitter := bytes [0x09, modRR src dst] e

def xor (dst src : Nat) (e : Emitter) : Emitter := bytes [0x31, modRR src dst] e

def shl (dst : Nat) (e : Emitter) : Emitter := bytes [0xD3, UInt8.ofNat (0xE0 ||| dst)] e

def shr (dst : Nat) (e : Emitter) : Emitter := bytes [0xD3, UInt8.ofNat (0xE8 ||| dst)] e

def cmp (a b : Nat) (e : Emitter) : Emitter := bytes [0x39, modRR b a] e

def setcc (cc reg : Nat) (e : Emitter) : Emitter :=
  bytes [0x0F, UInt8.ofNat (0x90 + cc), UInt8.ofNat (0xC0 ||| reg)] e

/-- `mov eax, addr; call eax`. -/
def callAbs (addr : BitVec 32) (e : Emitter) : Emitter :=
  bytes [0xFF, 0xD0] (movRegImm REG_EAX addr e)

def ret (e : Emitter) : Emitter := byte 0xC3 e

def jmpRel (offset : BitVec 32) (e : Emitter) : Emitter := dword offset (byte 0xE9 e)

/-- `jmp` back to a position of the buffer. -/
def jmpTo (target : Nat) (e : Emitter) : Emitter := jmpRel (disp (e.pos + 5) target) e

/-- `jmp` with a placeholder, and where the placeholder is. -/
def jmpPlaceholder (e : Emitter) : Emitter × Nat :=
  let e := byte 0xE9 e
  (dword 0 e, e.pos)

def jccPlaceholder (cc : Nat) (e : Emitter) : Emitter × Nat :=
  let e := bytes [0x0F, UInt8.ofNat (0x80 + cc)] e
  (dword 0 e, e.pos)

/-- Let the jump whose placeholder is at `p` lead to the current position. -/
def patchHere (p : Nat) (e : Emitter) : Emitter := patchDword p (disp (p + 4) e.pos) e

/-- `mov esp, ebp; pop ebp; ret`. -/
def epilogue (e : Emitter) : Emitter := bytes [0x89, 0xEC, 0x5D, 0xC3] e

def addEsp (n : BitVec 32) (e : Emitter) : Emitter := dword n (bytes [0x81, 0xC4] e)

def cmpEaxImm (val : BitVec 32) (e : Emitter) : Emitter := dword val (byte 0x3D e)

def movzxEaxAl (e : Emitter) : Emitter := bytes [0x0F, 0xB6, 0xC0] e

end Emitter

end SysRust.Rc
