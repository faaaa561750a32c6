import SysRust.Core.Rc.Parse
import SysRust.Lib.Asm

/-!
# Emitting Instructions

What the emitter's functions write, as lists of instructions. `Grows` says
that code has been appended to the buffer, provided that nothing was
dropped: it is the relation every function of the compiler that emits code
keeps, and it composes. A placeholder that is filled in later changes what
has been appended, not where.

## Main definitions

* `Grows`: Bytes have been appended, unless the buffer has overflowed.
* `Emits`: A function of the emitter appends these instructions.

## Theorems

* `Grows.trans`: Appending one piece behind another.
* `grows_bytes`: Writing bytes.
* `grows_patchHere`: Filling in a placeholder.
* `emits_pushReg`, `emits_movRegImm`, ...: The instruction of each function.
-/

namespace SysRust.Rc

open X86 Emitter List

/-- The bytes `bs` have been appended, unless the buffer has overflowed. -/
def Grows (e e' : Emitter) (bs : List UInt8) : Prop :=
  e'.base = e.base ∧
  (e'.overflow = false →
    e.overflow = false ∧ e'.code = e.code ++ bs ∧ (bs ≠ [] → e'.code.length ≤ CC_CODE_MAX))

theorem Grows.refl (e : Emitter) : Grows e e [] :=
  ⟨rfl, fun h => ⟨h, (append_nil _).symm, fun hne => absurd rfl hne⟩⟩

variable {bs cs hd : List UInt8} {e e' : Emitter}

theorem Grows.trans {e'' : Emitter} (h1 : Grows e e' bs) (h2 : Grows e' e'' cs) :
    Grows e e'' (bs ++ cs) := by
  refine ⟨h2.1.trans h1.1, fun ho => ?_⟩
  rcases h2.2 ho with ⟨ho', hcode', hmax'⟩
  rcases h1.2 ho' with ⟨ho, hcode, hmax⟩
  refine ⟨ho, by rw [hcode', hcode, append_assoc], fun hne => ?_⟩
  by_cases hcs : cs = []
  · rw [hcs, append_nil] at hne
    rw [hcode', hcs, append_nil]
    exact hmax hne
  · exact hmax' hcs

/-- A position taken in between. -/
theorem Grows.pos (h : Grows e e' bs) (ho : e'.overflow = false) : e'.pos = e.pos + bs.length := by
  simp only [Emitter.pos, (h.2 ho).2.1, length_append]

theorem grows_byte (b : UInt8) (e : Emitter) : Grows e (byte b e) [b] := by
  unfold byte
  by_cases h : e.code.length < CC_CODE_MAX
  · rw [if_pos h]
    refine ⟨rfl, fun ho => ⟨ho, rfl, fun _ => ?_⟩⟩
    simp only [length_append, length_singleton]
    omega
  · rw [if_neg h]
    exact ⟨rfl, fun ho => absurd ho Bool.true_eq_false.mp⟩

theorem grows_bytes (bs : List UInt8) (e : Emitter) : Grows e (Emitter.bytes bs e) bs := by
  induction bs generalizing e with
  | nil => exact Grows.refl e
  | cons b bs ih => exact (grows_byte b e).trans (ih (byte b e))

theorem bytes_append (bs cs : List UInt8) (e : Emitter) :
    Emitter.bytes (bs ++ cs) e = Emitter.bytes cs (Emitter.bytes bs e) := by
  induction bs generalizing e with
  | nil => rfl
  | cons b bs ih => exact ih (byte b e)

theorem toU8_digit (d : BitVec 32) (k : Nat) :
    toU8 ((d >>> k) &&& 0xFF) = UInt8.ofNat (d.toNat / 2 ^ k) := by
  apply UInt8.toNat_inj.mp
  simp only [toU8, UInt8.toNat_ofNat', BitVec.toNat_and, BitVec.toNat_ushiftRight,
    Nat.shiftRight_eq_div_pow]
  rw [show (0xFF : BitVec 32).toNat = 2 ^ 8 - 1 from rfl, Nat.and_two_pow_sub_one_eq_mod]
  omega

theorem word_eq (d : BitVec 32) : word d = leBytes d := by
  have h0 := toU8_digit d 0
  rw [BitVec.ushiftRight_zero] at h0
  simp only [word, leBytes, h0, toU8_digit, pow_zero, Nat.div_one]
  rfl

theorem dword_eq (d : BitVec 32) (e : Emitter) : dword d e = Emitter.bytes (leBytes d) e := by
  rw [Emitter.dword, word_eq]

/-! ### Placeholders -/

theorem patchDword_eq (p : Nat) (v : BitVec 32) (e : Emitter) (hp : p + 4 ≤ CC_CODE_MAX)
    {as : List UInt8} {a b c d : UInt8} (hcode : e.code = as ++ [a, b, c, d] ++ cs)
    (hlen : p = as.length) : patchDword p v e = { e with code := as ++ leBytes v ++ cs } := by
  have hset (k : Nat) (x : UInt8) (r : List UInt8) :
      (as ++ r).set (p + k) x = as ++ r.set k x := by
    rw [set_append_right _ _ (by omega), show p + k - as.length = k by omega]
  have h0 := hset 0
  rw [Nat.add_zero] at h0
  simp only [patchDword, if_pos hp, hcode, append_assoc as, h0, hset, ← word_eq]
  rfl

theorem overflow_patchHere (p : Nat) (e : Emitter) : (patchHere p e).overflow = e.overflow := by
  simp only [patchHere, patchDword]
  split_ifs <;> rfl

/-- Filling in a placeholder: the jump leads behind what has been appended
    since. -/
theorem grows_patchHere {d : BitVec 32} {p : Nat} (h : Grows e e' (hd ++ leBytes d ++ cs))
    (hp : e'.overflow = false → p = e.pos + hd.length) :
    Grows e (patchHere p e') (hd ++ leBytes (BitVec.ofNat 32 cs.length) ++ cs) := by
  have hbase : (patchHere p e').base = e'.base := by
    simp only [patchHere, patchDword]
    split_ifs <;> rfl
  refine ⟨hbase.trans h.1, fun ho => ?_⟩
  rw [overflow_patchHere] at ho
  rcases h.2 ho with ⟨ho', hcode, hmax⟩
  have hmax' := hmax (by simp [leBytes])
  have hp' := hp ho
  have hpos : e'.pos = p + 4 + cs.length := by
    rw [h.pos ho, hp']
    simp only [length_append, length_leBytes]
    omega
  have hfit : p + 4 ≤ CC_CODE_MAX := by
    simp only [Emitter.pos] at hpos
    omega
  -- The distance from the placeholder to here.
  have hdisp : disp (p + 4) e'.pos = BitVec.ofNat 32 cs.length := by
    rw [hpos, disp, BitVec.ofNat_add, BitVec.add_comm, BitVec.add_sub_cancel]
  have hcode' : e'.code = (e.code ++ hd) ++ leBytes d ++ cs := by
    rw [hcode]
    simp only [append_assoc]
  have hpatch := patchDword_eq p (BitVec.ofNat 32 cs.length) e' hfit hcode' (by
    rw [hp', length_append, Emitter.pos])
  refine ⟨ho', ?_, fun _ => ?_⟩
  · rw [patchHere, hdisp, hpatch]
    simp only [append_assoc]
  · rw [patchHere, hdisp, hpatch]
    rw [hcode'] at hmax'
    simpa only [length_append, length_leBytes] using hmax'

/-! ### Instructions -/

/-- The function appends these instructions. -/
def Emits (f : Emitter → Emitter) (is : List Instr) : Prop :=
  ∀ e, f e = Emitter.bytes (assemble is) e

variable {f : Emitter → Emitter} {is : List Instr} {i : BitVec 32 → Instr}

theorem Emits.grows (h : Emits f is) (e : Emitter) : Grows e (f e) (assemble is) := by
  rw [h e]
  exact grows_bytes _ e

/-- One function after the other. -/
theorem Emits.comp {g : Emitter → Emitter} {js : List Instr} (hf : Emits f is) (hg : Emits g js) :
    Emits (fun e => g (f e)) (is ++ js) := by
  intro e
  rw [assemble_append, bytes_append, ← hf e]
  exact hg (f e)

theorem emits_pushReg : Emits (pushReg REG_EAX) [.push eax] := fun _ => rfl

theorem emits_popReg : Emits (popReg REG_EAX) [.pop eax] := fun _ => rfl

theorem emits_movRegImm (v : BitVec 32) : Emits (movRegImm REG_EAX v) [.movImm eax v] :=
  fun _ => dword_eq v _

theorem emits_movRegReg : Emits (movRegReg REG_ECX REG_EAX) [.mov (.reg ecx) eax] := fun _ => rfl

theorem emits_loadLocal (off : BitVec 32) :
    Emits (loadLocal REG_EAX off) [.load eax (.mem (some ebp) off)] := by
  intro e
  simp only [loadLocal, dword_eq, assemble_cons, assemble_nil, encode, encodeRm_ebp]
  rfl

theorem emits_idivEcx : Emits idivEcx [.cdq, .idiv (.reg ecx)] := fun _ => rfl

theorem emits_movEaxEdx : Emits (movRegReg REG_EAX REG_EDX) [.mov (.reg eax) edx] := fun _ => rfl

theorem emits_neg : Emits (neg REG_EAX) [.neg (.reg eax)] := fun _ => rfl

theorem emits_not : Emits (Emitter.not REG_EAX) [.not (.reg eax)] := fun _ => rfl

theorem emits_cmp : Emits (cmp REG_EAX REG_ECX) [.alu .cmp (.reg eax) ecx] := fun _ => rfl

theorem emits_setcc (cc : Fin 16) : Emits (setcc cc.val REG_EAX) [.setcc cc (.reg eax)] :=
  fun _ => rfl

theorem emits_movzxEaxAl : Emits movzxEaxAl [.movzxByte eax (.reg eax)] := fun _ => rfl

theorem emits_cmpEaxImm (v : BitVec 32) :
    Emits (cmpEaxImm v) [.aluImm .cmp (.reg eax) v] := fun _ => dword_eq v _

/-! ### Forward jumps -/

/-- A jump with a displacement in its last four bytes. -/
def Jump (i : BitVec 32 → Instr) (hd : List UInt8) : Prop := ∀ d, encode (i d) = hd ++ leBytes d

theorem jump_jmp : Jump .jmp [0xE9] := fun _ => rfl

theorem jump_jcc (cc : Fin 16) : Jump (.jcc cc) [0x0F, UInt8.ofNat (0x80 + cc.val)] := fun _ => rfl

/-- A jump with a placeholder has been written in front of `e'`, and its
    position is `p`. -/
structure Hole (e e' : Emitter) (i : BitVec 32 → Instr) (hd : List UInt8) (p : Nat) : Prop where
  jump : Jump i hd
  grows : Grows e e' (assemble [i 0])
  pos : e'.overflow = false → p = e.pos + hd.length

/-- Any jump is written with its placeholder in the same way. -/
theorem hole_of_bytes (h : Jump i hd) (e : Emitter) :
    Hole e (dword 0 (Emitter.bytes hd e)) i hd (Emitter.bytes hd e).pos where
  jump := h
  grows := by
    rw [assemble_singleton, h 0, dword_eq]
    exact (grows_bytes hd e).trans (grows_bytes (leBytes 0) _)
  pos := fun ho => by
    exact (grows_bytes hd e).pos ((grows_bytes (leBytes 0) _).2 ho).1

theorem hole_jmpPlaceholder (e : Emitter) :
    Hole e (jmpPlaceholder e).1 .jmp [0xE9] (jmpPlaceholder e).2 := by
  have h := hole_of_bytes jump_jmp e
  simp only [jmpPlaceholder]
  exact h

theorem hole_jccPlaceholder (cc : Fin 16) (e : Emitter) :
    Hole e (jccPlaceholder cc.val e).1 (.jcc cc) [0x0F, UInt8.ofNat (0x80 + cc.val)]
      (jccPlaceholder cc.val e).2 := by
  have h := hole_of_bytes (jump_jcc cc) e
  simp only [jccPlaceholder]
  exact h

/-- Letting the jump of a hole lead to the end of the code. What stands
    before the jump may have been patched as well. -/
theorem Hole.patch {e1 e2 : Emitter} {p : Nat} (h : Hole e1 e2 i hd p) (is js : List Instr)
    (hpos : e'.overflow = false → e2.overflow = false ∧ e1.pos = e.pos + size is)
    (hafter : Grows e e' (assemble (is ++ i 0 :: js))) :
    Grows e (patchHere p e') (assemble (is ++ i (BitVec.ofNat 32 (size js)) :: js)) := by
  have hsplit (d : BitVec 32) :
      assemble (is ++ i d :: js) = (assemble is ++ hd) ++ leBytes d ++ assemble js := by
    simp only [assemble_append, assemble_cons, h.jump d, append_assoc]
  rw [hsplit] at hafter ⊢
  refine grows_patchHere hafter (fun ho => ?_)
  rcases hpos ho with ⟨h2, hpos⟩
  rw [h.pos h2, hpos, length_append, Nat.add_assoc]
  rfl

end SysRust.Rc
