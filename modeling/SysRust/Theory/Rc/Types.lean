import SysRust.Theory.Rc.Operators

/-!
# Operators and Types

The compiler has one integer type: `i32`, `isize`, `u32` and `usize` all
become it when a type is parsed, so the code of an operator cannot depend on
the type of its operands. Division and comparisons are emitted for signed
numbers and the right shift for unsigned ones, by both copies of the parser.

## Main definitions

* `TypedOp`: The operators whose value in Rust depends on the type.
* `TypedOp.rust`: Their values in Rust.

## Theorems

* `typed_operators_iff`: For which types the code computes them.
-/

namespace SysRust.Rc

open X86 Emitter

inductive TypedOp where
  | shr
  | div
  | rem
  | lt
  | gt
  | le
  | ge
deriving DecidableEq

/-- The number that a word of the type stands for. -/
def valueOf (signed : Bool) (x : BitVec 32) : Int := if signed then x.toInt else x.toNat

namespace TypedOp

/-- The value in Rust, if there is one. A count is taken modulo 32. -/
def rust (signed : Bool) (x y : BitVec 32) : TypedOp → Option (BitVec 32)
  | .shr => some (BitVec.ofInt 32 (valueOf signed x / 2 ^ (y.toNat % 32)))
  | .div =>
    if y = 0 ∨ (signed ∧ BinOp.Faults x y) then none
    else some (BitVec.ofInt 32 ((valueOf signed x).tdiv (valueOf signed y)))
  | .rem =>
    if y = 0 ∨ (signed ∧ BinOp.Faults x y) then none
    else some (BitVec.ofInt 32 ((valueOf signed x).tmod (valueOf signed y)))
  | .lt => some (ofBool (valueOf signed x < valueOf signed y))
  | .gt => some (ofBool (valueOf signed y < valueOf signed x))
  | .le => some (ofBool (valueOf signed x ≤ valueOf signed y))
  | .ge => some (ofBool (valueOf signed y ≤ valueOf signed x))

/-- The operator among those of the compiler's expressions. -/
def binOp : TypedOp → BinOp
  | .shr => .shr
  | .div => .div
  | .rem => .rem
  | .lt => .lt
  | .gt => .gt
  | .le => .le
  | .ge => .ge

def tok (op : TypedOp) : Tok := op.binOp.tok

def level (op : TypedOp) : Nat := op.binOp.level

def emit (op : TypedOp) : Emitter → Emitter := op.binOp.emit

def code (op : TypedOp) : List Instr := opCode op.binOp

end TypedOp

-- What the emitter writes is known from `Emits`; its code is not looked at.
attribute [local irreducible] Emitter.bytes Emitter.byte Emitter.dword

variable {s : Compiler} {op : TypedOp}

/-- The loop of a level at one of the operators. -/
theorem body_loop_typed (self : Self) (ht : s.tok = op.tok) :
    body self (loopCall op.level) s =
      (binary self (levelCall (op.level + 1)) op.emit s).bind (self (loopCall op.level)) := by
  have hloop := body_loop self op.binOp ht
  cases op <;> exact hloop

theorem body_binops_typed (self : Self) (ht : s.tok = op.tok) (he : s.errors = []) :
    body self .binops s =
      (binary self (levelCall (op.level + 1)) op.emit s).bind (self .binops) := by
  have hbinops := body_binops self op.binOp ht he
  cases op <;> exact hbinops

theorem emits_typed (op : TypedOp) : Emits op.emit op.code := by
  have hop := emits_op op.binOp
  cases op <;> exact hop rfl

theorem shr_eq_ofInt (x : BitVec 32) (n : Nat) :
    x >>> n = BitVec.ofInt 32 ((x.toNat : Int) / 2 ^ n) := by
  have hpow : (2 : Int) ^ n = ((2 ^ n : Nat) : Int) := (Int.natCast_pow 2 n).symm
  rw [hpow, ← Int.natCast_ediv, BitVec.ofInt_natCast]
  apply BitVec.eq_of_toNat_eq
  rw [BitVec.toNat_ushiftRight, Nat.shiftRight_eq_div_pow, BitVec.toNat_ofNat]
  exact (Nat.mod_eq_of_lt (Nat.lt_of_le_of_lt (Nat.div_le_self _ _) x.isLt)).symm

/-- `eax` is -1 or the largest word, and `ecx` is 2. -/
def minusOneAndTwo : Cpu where
  reg := fun r => if r = eax then BitVec.allOnes 32 else 2
  eip := 0
  flags := none
  mem := fun _ => 0

/-- Whatever the operands are and whatever types their variables have, both
    parsers emit the code of the operator behind them. It computes the value in
    Rust for all operands exactly if they are unsigned and the operator is `>>`,
    or signed and it is another one. -/
theorem typed_operators_iff (op : TypedOp) (signed : Bool) :
    (∀ n s, s.tok ∈ [.i32, .isize, .u32, .usize] →
      (parseTypeIn (n + 1) s).map Prod.fst = some (some (.int, false))) ∧
    (∀ self s, s.tok = op.tok → body self (loopCall op.level) s =
      (binary self (levelCall (op.level + 1)) op.emit s).bind (self (loopCall op.level))) ∧
    (∀ self s, s.tok = op.tok → s.errors = [] → body self .binops s =
      (binary self (levelCall (op.level + 1)) op.emit s).bind (self .binops)) ∧
    Emits op.emit op.code ∧
    ((∀ (s : Cpu) v, op.rust signed (s.reg eax) (s.reg ecx) = some v → Computes op.code s v) ↔
      (op = .shr ↔ signed = false)) := by
  refine ⟨fun n s ht => ?_, fun self s ht => body_loop_typed self ht,
    fun self s ht he => body_binops_typed self ht he, emits_typed op, fun h => ?_,
    fun h s v hv => ?_⟩
  · simp only [List.mem_cons, List.not_mem_nil, or_false] at ht
    rcases ht with ht | ht | ht | ht <;> simp only [parseTypeIn, Compiler.tok] at ht ⊢ <;>
      rw [ht] <;> rfl
  · have hsome : ∃ v, op.rust signed (minusOneAndTwo.reg eax) (minusOneAndTwo.reg ecx) =
        some v := by
      cases op <;> cases signed <;> exact ⟨_, rfl⟩
    rcases hsome with ⟨v, hv⟩
    rcases h minusOneAndTwo v hv with ⟨t, ht, heax, -⟩
    have hsame : (execs op.code minusOneAndTwo).map (fun t => t.reg eax) =
        op.rust signed (minusOneAndTwo.reg eax) (minusOneAndTwo.reg ecx) := by
      rw [ht, hv, Option.map_some, heax]
    clear ht hv h
    revert hsame
    cases op <;> cases signed <;> decide
  · cases signed
    · cases h.mpr rfl
      refine ⟨_, rfl, ?_, rfl, rfl⟩
      rw [← Option.some.inj hv]
      exact shr_eq_ofInt _ _
    · have hop := @computes_opCode s op.binOp v
      cases op
      case shr => exact absurd (h.mp rfl) (by decide)
      case div | rem =>
          refine hop rfl (Eq.trans ?_ hv)
          exact if_congr ⟨fun hf => Or.inr ⟨rfl, hf⟩, fun h => h.elim Or.inl And.right⟩ rfl rfl
      all_goals exact hop rfl hv

theorem unsigned_quotient_signed :
    (execs (TypedOp.code .div) minusOneAndTwo).map (fun t => t.reg eax) = some 0 ∧
      TypedOp.rust false (minusOneAndTwo.reg eax) (minusOneAndTwo.reg ecx) .div =
        some 0x7FFFFFFF := by
  decide

end SysRust.Rc
