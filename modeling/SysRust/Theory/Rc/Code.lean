import SysRust.Core.Rc.Lang
import SysRust.Lib.Asm

/-!
# The Code of an Expression

The code that stands for an expression, as a list of instructions that can
be put anywhere in memory, and the proof that running it computes the value
of the expression. Nothing here is about the parser: that the parser emits
this code is shown in `Theory.Rc.Expr`.

Every piece of code leaves its value in `eax` and the stack as it was. What
happens below the stack pointer is bounded by `room`: one word for every
binary operator is enough.

## Main definitions

* `opCode`, `genBin`, `gen`: The code.
* `Ready`: A processor in front of code, with room on the stack.
* `Holds`: The frame holds the variables.
* `Ran`: What running a piece of code does.

## Theorems

* `execs_opCode`: An operator computes its value from `eax` and `ecx`.
* `ran_bin`: An operator and the code of its right operand.
* `ran_gen`: The code of an expression computes its value.
-/

namespace SysRust.Rc

open X86 Option

/-! ### The code -/

/-- A comparison as 0 or 1. -/
def compareCode (cc : Fin 16) : List Instr :=
  [.alu .cmp (.reg eax) ecx, .setcc cc (.reg eax), .movzxByte eax (.reg eax)]

/-- Whether `eax` is not zero, as 0 or 1. -/
def truthCode : List Instr :=
  [.aluImm .cmp (.reg eax) 0, .setcc 5 (.reg eax), .movzxByte eax (.reg eax)]

/-- The operators whose operands are both evaluated. -/
def BinOp.strict : BinOp → Bool
  | .land => false
  | .lor => false
  | _ => true

/-- The operation on `eax` and `ecx`. -/
def opCode : BinOp → List Instr
  | .mul => [.imul eax (.reg ecx)]
  | .div => [.cdq, .idiv (.reg ecx)]
  | .rem => [.cdq, .idiv (.reg ecx), .mov (.reg eax) edx]
  | .add => [.alu .add (.reg eax) ecx]
  | .sub => [.alu .sub (.reg eax) ecx]
  | .shl => [.shl (.reg eax)]
  | .shr => [.shr (.reg eax)]
  | .lt => compareCode 12
  | .gt => compareCode 15
  | .le => compareCode 14
  | .ge => compareCode 13
  | .eq => compareCode 4
  | .ne => compareCode 5
  | .band => [.alu .and (.reg eax) ecx]
  | .bxor => [.alu .xor (.reg eax) ecx]
  | .bor => [.alu .or (.reg eax) ecx]
  | .land => []
  | .lor => []

/-- Behind the right operand of a strict operator. -/
def popCode (op : BinOp) : List Instr := .mov (.reg ecx) eax :: .pop eax :: opCode op

/-- An operator behind its left operand: `right` is the code of the other. -/
def genBin (op : BinOp) (right : List Instr) : List Instr :=
  match op with
  | .land =>
    [.aluImm .cmp (.reg eax) 0, .jcc 4 (BitVec.ofNat 32 (size (right ++ truthCode)))] ++
      (right ++ truthCode)
  | .lor =>
    [.aluImm .cmp (.reg eax) 0,
      .jcc 5 (BitVec.ofNat 32 (size (right ++ (truthCode ++ [.jmp 5]))))] ++
      (right ++ (truthCode ++ [.jmp 5]) ++ [.movImm eax 1])
  | op => [.push eax] ++ (right ++ popCode op)

/-- The code of an expression whose variables are at the given offsets. -/
def gen (slot : List UInt8 → BitVec 32) : Expr → List Instr
  | .lit v => [.movImm eax v]
  | .var name => [.load eax (.mem (some ebp) (slot name))]
  | .neg e => gen slot e ++ [.neg (.reg eax)]
  | .not e => gen slot e ++ [.not (.reg eax)]
  | .bin op a b => gen slot a ++ genBin op (gen slot b)

/-! ### Running code -/

/-- In front of code, with `room` bytes below the stack pointer that are not
    code. -/
structure Ready (s : Cpu) (is : List Instr) (room : Nat) : Prop where
  code : At s is
  fits : room ≤ (s.reg esp).toNat
  apart : s.eip.toNat + size is + room ≤ (s.reg esp).toNat ∨ (s.reg esp).toNat ≤ s.eip.toNat

/-- The variables are in the frame, above the stack pointer. -/
def Holds (slot : List UInt8 → BitVec 32) (env : List UInt8 → Option (BitVec 32)) (s : Cpu) :
    Prop :=
  ∀ name v, env name = some v →
    (s.reg esp).toNat ≤ (s.reg ebp + slot name).toNat ∧
    (s.reg ebp + slot name).toNat + 4 ≤ 2 ^ 32 ∧
    load s.mem (s.reg ebp + slot name).toNat 4 = v.toNat

/-- From `s` to `t` over `n` bytes of code: the stack and everything outside
    of `room` bytes below it are as before. -/
structure Ran (s t : Cpu) (n room : Nat) : Prop where
  reaches : Reaches s t
  eip : t.eip = s.eip + BitVec.ofNat 32 n
  sp : t.reg esp = s.reg esp
  bp : t.reg ebp = s.reg ebp
  mem : ∀ a, a + room < (s.reg esp).toNat ∨ (s.reg esp).toNat ≤ a → t.mem a = s.mem a

variable {m n r k : Nat} {s t : Cpu} {is js p : List Instr} {env : List UInt8 → Option (BitVec 32)}
  {slot : List UInt8 → BitVec 32} {b : Bool} {cc : Fin 16} {op : BinOp} {v : BitVec 32}
  {o : Option (BitVec 32)}

theorem Ran.mono (h : Ran s t n r) (hr : r ≤ m) : Ran s t n m where
  reaches := h.reaches
  eip := h.eip
  sp := h.sp
  bp := h.bp
  mem := fun a ha => h.mem a (by omega)

theorem Ran.trans {u : Cpu} (h1 : Ran s t n r) (h2 : Ran t u m r) :
    Ran s u (n + m) r where
  reaches := h1.reaches.trans h2.reaches
  eip := by rw [h2.eip, h1.eip, BitVec.add_assoc, BitVec.ofNat_add]
  sp := h2.sp.trans h1.sp
  bp := h2.bp.trans h1.bp
  mem := fun a ha => (h2.mem a (by rwa [h1.sp])).trans (h1.mem a ha)

/-- Quiet code that leaves the stack alone. -/
theorem Ran.of_execs (hq : ∀ i ∈ is, i.quiet = true) (h : At s is) (he : execs is s = some t)
    (hsp : t.reg esp = s.reg esp) (hbp : t.reg ebp = s.reg ebp) (r : Nat) :
    Ran s t (size is) r := by
  rcases reaches_execs hq h he with ⟨hr, hm, heip⟩
  exact ⟨hr, heip, hsp, hbp, fun a _ => congrFun hm a⟩

theorem Ready.mono {r' : Nat} (h : Ready s is r') (hr : r ≤ r') :
    Ready s is r where
  code := h.code
  fits := by have := h.fits; omega
  apart := by have := h.apart; omega

theorem Ready.left (h : Ready s (is ++ js) r) :
    Ready s is r where
  code := h.code.left
  fits := h.fits
  apart := by
    have := h.apart
    rw [size_append] at this
    omega

/-- Code outside of the room is as it was. -/
theorem Ready.agree (h : Ready s is r) (hran : Ran s t n r) :
    AgreeOn t.mem s.mem s.eip.toNat (s.eip.toNat + size is) :=
  fun b h1 h2 => hran.mem b (by have := h.apart; omega)

/-- Behind the first part of the code. -/
theorem Ready.right {q : List Instr} (h : Ready s (p ++ q) r) (hran : Ran s t (size p) r) :
    Ready t q r := by
  have hcode : At t q := h.code.right hran.eip (h.agree hran)
  have hfit := h.code.2
  have heip : t.eip.toNat = s.eip.toNat + size p := by
    rw [hran.eip]
    exact toNat_add_ofNat (by rw [size_append] at hfit; omega)
  refine ⟨hcode, by rw [hran.sp]; exact h.fits, ?_⟩
  rw [hran.sp, heip]
  have := h.apart
  rw [size_append] at this
  omega

/-- Running code leaves the variables alone. -/
theorem Holds.ran (h : Holds slot env s) (hran : Ran s t n r) : Holds slot env t := by
  intro name v hv
  rcases h name v hv with ⟨h1, h2, h3⟩
  rw [hran.sp, hran.bp]
  refine ⟨h1, h2, ?_⟩
  rw [← h3]
  exact load_congr (fun b hb _ => hran.mem b (Or.inr (by omega)))

/-! ### Operators -/

/-- What an operation on `eax` and `ecx` does. -/
def Computes (is : List Instr) (s : Cpu) (v : BitVec 32) : Prop :=
  ∃ t, execs is s = some t ∧ t.reg eax = v ∧ t.reg esp = s.reg esp ∧ t.reg ebp = s.reg ebp

theorem setByte_ofBool (w : BitVec 32) (b : Bool) :
    BitVec.ofNat 32 (UInt8.ofNat (BitVec.ofNat 32
      (w.toNat / 256 * 256 + (if b then 1 else 0 : UInt8).toNat)).toNat).toNat = ofBool b := by
  apply BitVec.eq_of_toNat_eq
  cases b
  · simp only [Bool.false_eq_true, if_false, ofBool, BitVec.toNat_ofNat, UInt8.toNat_ofNat']
    rw [show (0 : UInt8).toNat = 0 from rfl, show (0 : BitVec 32).toNat = 0 from rfl]
    omega
  · simp only [if_true, ofBool, BitVec.toNat_ofNat, UInt8.toNat_ofNat']
    rw [show (1 : UInt8).toNat = 1 from rfl, show (1 : BitVec 32).toNat = 1 from rfl]
    omega

/-- Flags become a word. -/
theorem computes_setcc {f : Flags} (hf : s.flags = some f) (hc : condition cc f = some b) :
    Computes [.setcc cc (.reg eax), .movzxByte eax (.reg eax)] s (ofBool b) := by
  unfold Computes
  simp only [execs, exec, Cpu.skip, hf, bind_some, hc, Cpu.putByte, Cpu.getByte, eax,
    Fin.val_zero, Nat.zero_lt_succ, if_true, map_some, Cpu.reg_set_self]
  exact ⟨_, rfl, setByte_ofBool _ b, rfl, rfl⟩

/-- A comparison of `eax` and `ecx`. -/
theorem computes_compare (hc : condition cc (subFlags (s.reg eax) (s.reg ecx)) = some b) :
    Computes (compareCode cc) s (ofBool b) :=
  computes_setcc (s := { s.skip _ with flags := some (subFlags (s.reg eax) (s.reg ecx)) }) rfl hc

theorem computes_truth (s : Cpu) : Computes truthCode s (ofBool (s.reg eax ≠ 0)) :=
  computes_setcc (s := { s.skip _ with flags := some (subFlags (s.reg eax) 0) }) rfl
    (cond_ne _ _)

theorem computes_idiv (h : ¬BinOp.Faults (s.reg eax) (s.reg ecx)) :
    ∃ t, execs [.cdq, .idiv (.reg ecx)] s = some t ∧
      t.reg eax = BitVec.ofInt 32 ((s.reg eax).toInt.tdiv (s.reg ecx).toInt) ∧
      t.reg edx = BitVec.ofInt 32 ((s.reg eax).toInt.tmod (s.reg ecx).toInt) ∧
      t.reg esp = s.reg esp ∧ t.reg ebp = s.reg ebp := by
  have hdiv := divide_cdq
    (s := ((s.skip 1).set edx (if (s.reg eax).msb then BitVec.allOnes 32 else 0)).skip 2)
    (y := s.reg ecx) rfl (fun h0 => h (Or.inl h0)) (fun h1 => h (Or.inr h1))
  exact ⟨_, congrArg (Option.bind · (execs [])) hdiv, rfl, rfl, rfl, rfl⟩

/-- An operator computes its value from `eax` and `ecx`. -/
theorem computes_opCode (hop : op.strict = true)
    (h : op.run (s.reg eax) (some (s.reg ecx)) = some v) : Computes (opCode op) s v := by
  cases op <;> simp only [BinOp.strict, Bool.false_eq_true] at hop <;>
    simp only [BinOp.run, map_some, bind_some, some.injEq] at h
  case div =>
      split_ifs at h with hf
      rcases computes_idiv hf with ⟨t, ht, hq, -, hsp, hbp⟩
      exact ⟨t, ht, hq.trans (some.inj h), hsp, hbp⟩
  case rem =>
      split_ifs at h with hf
      rcases computes_idiv hf with ⟨t, ht, -, hr, hsp, hbp⟩
      refine ⟨(t.skip 2).set eax (t.reg edx), ?_, ?_, hsp, hbp⟩
      · rw [show opCode .rem = [.cdq, .idiv (.reg ecx)] ++ [.mov (.reg eax) edx] from rfl,
          execs_append, ht]
        rfl
      · rw [Cpu.reg_set_self, hr]
        exact some.inj h
  case lt => exact h ▸ computes_compare (cond_l _ _)
  case gt => exact h ▸ computes_compare (cond_g _ _)
  case le => exact h ▸ computes_compare (cond_le _ _)
  case ge => exact h ▸ computes_compare (cond_ge _ _)
  case eq => exact h ▸ computes_compare (cond_e _ _)
  case ne => exact h ▸ computes_compare (cond_ne _ _)
  all_goals exact ⟨_, rfl, h, rfl, rfl⟩

/-! ### Operands -/

/-- Running the code evaluates to `r`, with a word of room for each of `n`
    operators. -/
def Evaluates (is : List Instr) (slot : List UInt8 → BitVec 32)
    (env : List UInt8 → Option (BitVec 32)) (n : Nat) (r : Option (BitVec 32)) : Prop :=
  ∀ v, r = some v → ∀ s, Ready s is (4 * n) → Holds slot env s →
    ∃ t, Ran s t (size is) (4 * n) ∧ t.reg eax = v

/-- Behind a `push`: the word is on the stack, and everything else is where
    it was. -/
structure Pushed (s t : Cpu) : Prop where
  reaches : Reaches s t
  eip : t.eip = s.eip + 1
  sp : t.reg esp = s.reg esp - 4
  bp : t.reg ebp = s.reg ebp
  mem : t.mem = store s.mem ((s.reg esp).toNat - 4) 4 (s.reg eax).toNat

theorem toNat_sub_four {a : BitVec 32} (h : 4 ≤ a.toNat) : (a - 4).toNat = a.toNat - 4 := by
  rw [BitVec.toNat_sub, show (4 : BitVec 32).toNat = 4 from rfl]
  omega

/-- Pushing a word. -/
theorem push_eq (v : BitVec 32) (h : 4 ≤ (s.reg esp).toNat) : s.push v = some
    { s.set esp (s.reg esp - 4) with mem := store s.mem ((s.reg esp).toNat - 4) 4 v.toNat } := by
  rw [Cpu.push, Cpu.write, toNat_sub_four h, if_pos (by omega)]
  rfl

theorem pushed_of_at (h : At s (.push eax :: is)) (hsp : 4 ≤ (s.reg esp).toNat) :
    ∃ t, Pushed s t := by
  exact ⟨_, h.reaches (push_eq (s := s.skip 1) _ hsp), rfl, rfl, rfl, rfl⟩

theorem Pushed.ready (hp : Pushed s t) (h : Ready s ([.push eax] ++ is) (4 * (n + 1))) :
    Ready t is (4 * n) := by
  have hfits := h.fits
  have hfit := h.code.2
  have hapart := h.apart
  have hsize : size ([.push eax] ++ is) = 1 + size is := by
    rw [size_append]
    rfl
  have hsub := toNat_sub_four (a := s.reg esp) (by omega)
  have heip : t.eip.toNat = s.eip.toNat + 1 := by
    rw [hp.eip]
    exact toNat_add_ofNat (n := 1) (by omega)
  refine ⟨h.code.right hp.eip ?_, by rw [hp.sp, hsub]; omega, by rw [hp.sp, hsub, heip]; omega⟩
  intro b h1 h2
  rw [hp.mem]
  exact store_outside (by rw [hsize] at h2; omega)

theorem Pushed.holds (hp : Pushed s t) (hsp : 4 ≤ (s.reg esp).toNat) (h : Holds slot env s) :
    Holds slot env t := by
  intro name v hv
  rcases h name v hv with ⟨h1, h2, h3⟩
  rw [hp.sp, hp.bp, hp.mem, toNat_sub_four hsp]
  refine ⟨by omega, h2, ?_⟩
  rw [load_store_disjoint (by omega), h3]

/-- Behind the right operand: the left one comes back from the stack, and the
    operator computes its value. -/
theorem computes_popCode (hop : op.strict = true) {x : BitVec 32}
    (hx : load s.mem (s.reg esp).toNat 4 = x.toNat) (hsp : (s.reg esp).toNat + 4 ≤ 2 ^ 32)
    (h : op.run x (some (s.reg eax)) = some v) :
    ∃ t, execs (popCode op) s = some t ∧ t.reg eax = v ∧ t.reg esp = s.reg esp + 4 ∧
      t.reg ebp = s.reg ebp := by
  let u : Cpu := (((s.skip 2).set ecx (s.reg eax)).skip 1).set esp (s.reg esp + 4)
  have hread : (((s.skip 2).set ecx (s.reg eax)).skip 1).pop = some (x, u) := by
    show ((if (s.reg esp).toNat + 4 ≤ 2 ^ 32 then
      some (BitVec.ofNat 32 (load s.mem (s.reg esp).toNat 4)) else none).map _) = _
    rw [if_pos hsp, hx, BitVec.ofNat_toNat, BitVec.setWidth_eq]
    rfl
  have hpop : execs [.mov (.reg ecx) eax, .pop eax] s = some (u.set eax x) := by
    show (((((s.skip 2).set ecx (s.reg eax)).skip 1).pop).map _).bind _ = _
    rw [hread]
    rfl
  have hop' : Computes (opCode op) (u.set eax x) v := computes_opCode hop h
  rcases hop' with ⟨t, ht, hv, hsp', hbp'⟩
  refine ⟨t, ?_, hv, hsp', hbp'⟩
  rw [show popCode op = [.mov (.reg ecx) eax, .pop eax] ++ opCode op from rfl, execs_append,
    hpop]
  exact ht

theorem quiet_popCode (op : BinOp) : ∀ i ∈ popCode op, i.quiet = true := by
  cases op <;> decide

/-- A strict operator and the code of its right operand. -/
theorem ran_strict (hop : op.strict = true) {right : List Instr} {y : BitVec 32}
    (hright : Evaluates right slot env n (some y)) (hv : op.run (s.reg eax) (some y) = some v)
    (hr : Ready s ([.push eax] ++ (right ++ popCode op)) (4 * (n + 1))) (hh : Holds slot env s) :
    ∃ t, Ran s t (size ([.push eax] ++ (right ++ popCode op))) (4 * (n + 1)) ∧
      t.reg eax = v := by
  have hsp : 4 ≤ (s.reg esp).toNat := by
    have := hr.fits
    omega
  rcases pushed_of_at hr.code hsp with ⟨s1, hp⟩
  have hr1 := hp.ready hr
  -- The right operand leaves the pushed word alone.
  rcases hright y rfl s1 hr1.left (hp.holds hsp hh) with ⟨t1, hran, hy⟩
  have hr2 := hr1.right hran
  have hsp1 : (t1.reg esp).toNat = (s.reg esp).toNat - 4 := by
    rw [hran.sp, hp.sp, toNat_sub_four hsp]
  have hword : load t1.mem (t1.reg esp).toNat 4 = (s.reg eax).toNat := by
    have hkeep : load t1.mem (t1.reg esp).toNat 4 = load s1.mem (t1.reg esp).toNat 4 :=
      load_congr (fun b hb _ => hran.mem b (Or.inr (by rw [hran.sp] at hb; exact hb)))
    rw [hkeep, hp.mem, hsp1, load_store_self]
    exact Nat.mod_eq_of_lt (by have := (s.reg eax).isLt; omega)
  rcases computes_popCode hop hword (by omega) (by rw [hy]; exact hv) with ⟨t, ht, hv', hst, hbt⟩
  rcases reaches_execs (quiet_popCode op) hr2.code ht with ⟨hreach, hmem, heip⟩
  refine ⟨t, ⟨(hp.reaches.trans hran.reaches).trans hreach, ?_, ?_, ?_, ?_⟩, hv'⟩
  · rw [heip, hran.eip, hp.eip, size_append, size_append]
    simp only [BitVec.ofNat_add, BitVec.add_assoc]
    rfl
  · rw [hst, hran.sp, hp.sp, BitVec.sub_add_cancel]
  · rw [hbt, hran.bp, hp.bp]
  · intro a ha
    rw [hmem, hran.mem a (by rw [hp.sp, toNat_sub_four hsp]; omega), hp.mem]
    exact store_outside (by omega)

/-! ### Jumps -/

/-- A jump by `k` bytes, taken or not. -/
theorem ran_jcc {f : Flags} (h : At s (.jcc cc (BitVec.ofNat 32 k) :: is)) (hf : s.flags = some f)
    (hc : condition cc f = some b) : ∃ t, Ran s t (if b then 6 + k else 6) r ∧ t.reg = s.reg := by
  have hexec : exec (s.skip 6) (.jcc cc (BitVec.ofNat 32 k)) =
      some (s.skip (if b then 6 + k else 6)) := by
    simp only [exec, Cpu.skip, hf, bind_some, hc, map_some]
    cases b
    · rfl
    · simp only [if_true, BitVec.ofNat_add, BitVec.add_assoc]
  exact ⟨_, ⟨h.reaches hexec, rfl, rfl, rfl, fun a _ => rfl⟩, rfl⟩

theorem ran_jmp (h : At s (.jmp (BitVec.ofNat 32 k) :: is)) :
    ∃ t, Ran s t (5 + k) r ∧ t.reg = s.reg := by
  have hexec : exec (s.skip 5) (.jmp (BitVec.ofNat 32 k)) = some (s.skip (5 + k)) := by
    simp only [exec, Cpu.skip, BitVec.ofNat_add, BitVec.add_assoc]
  exact ⟨_, ⟨h.reaches hexec, rfl, rfl, rfl, fun a _ => rfl⟩, rfl⟩

/-- Compare `eax` with zero and jump by `k` bytes, or not. -/
theorem ran_test (h : Ready s ([.aluImm .cmp (.reg eax) 0, .jcc cc (BitVec.ofNat 32 k)] ++ is) r)
    (hc : condition cc (subFlags (s.reg eax) 0) = some b) :
    ∃ t, Ran s t (if b then 11 + k else 11) r ∧ t.reg = s.reg := by
  have hran : Ran s { s.skip 5 with flags := some (subFlags (s.reg eax) 0) } 5 r :=
    ⟨h.code.reaches rfl, rfl, rfl, rfl, fun a _ => rfl⟩
  have hr := h.right (p := [.aluImm .cmp (.reg eax) 0]) hran
  rcases ran_jcc (r := r) hr.code rfl hc with ⟨t, ht, hreg⟩
  refine ⟨t, ?_, hreg⟩
  have h2 := hran.trans ht
  cases b
  · exact h2
  · simp only [if_true] at h2 ⊢
    rwa [show 11 + k = 5 + (6 + k) by omega]

/-- `eax` as a truth value. -/
theorem ran_truth (h : Ready s (truthCode ++ p) r) :
    ∃ t, Ran s t (size truthCode) r ∧ t.reg eax = ofBool (s.reg eax ≠ 0) := by
  rcases computes_truth s with ⟨t, ht, hv, hsp, hbp⟩
  exact ⟨t, Ran.of_execs (by decide) h.code.left ht hsp hbp r, hv⟩

theorem ran_land {right : List Instr} (hright : Evaluates right slot env n o)
    (hv : BinOp.land.run (s.reg eax) o = some v) (hr : Ready s (genBin .land right) (4 * n))
    (hh : Holds slot env s) : ∃ t, Ran s t (size (genBin .land right)) (4 * n) ∧ t.reg eax = v := by
  simp only [BinOp.run] at hv
  rcases ran_test hr (cond_e _ _) with ⟨t1, hran, hreg⟩
  by_cases hz : s.reg eax = 0
  · -- The left operand decides.
    rw [if_pos hz] at hv
    simp only [hz, decide_true, if_true] at hran
    refine ⟨t1, ?_, ?_⟩
    · simp only [genBin, size_append (_ :: _)]
      exact hran
    · rw [hreg, hz]
      exact some.inj hv
  · rw [if_neg hz] at hv
    simp only [hz, decide_false, Bool.false_eq_true, if_false] at hran
    rcases map_eq_some_iff.mp hv with ⟨y, hy, rfl⟩
    have hr1 := hr.right (p := [_, _]) hran
    rcases hright y hy t1 hr1.left (hh.ran hran) with ⟨t2, hran2, hy2⟩
    have hr2 := hr1.right hran2
    rcases ran_truth (p := []) (by rwa [List.append_nil]) with ⟨t3, hran3, hv3⟩
    refine ⟨t3, ?_, by rw [hv3, hy2]⟩
    have hsize : size (genBin .land right) = 11 + size right + size truthCode := by
      simp only [genBin, size_append, ← Nat.add_assoc]
      rfl
    rw [hsize]
    exact (hran.trans hran2).trans hran3

theorem ran_movImm (h : At s (.movImm eax v :: is)) : ∃ t, Ran s t 5 r ∧ t.reg eax = v :=
  ⟨(s.skip 5).set eax v, ⟨h.reaches rfl, rfl, rfl, rfl, fun _ _ => rfl⟩,
    Cpu.reg_set_self _ _ _⟩

theorem ran_lor {right : List Instr} (hright : Evaluates right slot env n o)
    (hv : BinOp.lor.run (s.reg eax) o = some v) (hr : Ready s (genBin .lor right) (4 * n))
    (hh : Holds slot env s) : ∃ t, Ran s t (size (genBin .lor right)) (4 * n) ∧ t.reg eax = v := by
  simp only [BinOp.run] at hv
  have hsize : size (genBin .lor right) = 11 + size right + size truthCode + 5 + 5 := by
    simp only [genBin, size_append, ← Nat.add_assoc]
    rfl
  have hskip : size (right ++ (truthCode ++ [.jmp 5])) = size right + size truthCode + 5 := by
    simp only [size_append, ← Nat.add_assoc]
    rfl
  rw [hsize]
  rcases ran_test hr (cond_ne _ _) with ⟨t1, hran, hreg⟩
  by_cases hz : s.reg eax = 0
  · rw [if_pos hz] at hv
    simp only [hz, ne_eq, not_true_eq_false, decide_false, Bool.false_eq_true, if_false] at hran
    rcases map_eq_some_iff.mp hv with ⟨y, hy, rfl⟩
    have hr1 := hr.right (p := [_, _]) hran
    rcases hright y hy t1 hr1.left.left (hh.ran hran) with ⟨t2, hran2, hy2⟩
    rw [List.append_assoc] at hr1
    have hr2 := hr1.right hran2
    rw [List.append_assoc] at hr2
    rcases ran_truth hr2 with ⟨t3, hran3, hv3⟩
    have hr3 := hr2.right hran3
    -- The code for the other case is skipped.
    rcases ran_jmp (k := 5) (r := 4 * n) hr3.code with ⟨t4, hran4, hreg4⟩
    exact ⟨t4, ((hran.trans hran2).trans hran3).trans hran4, by rw [hreg4, hv3, hy2]⟩
  · -- The left operand decides.
    rw [if_neg hz] at hv
    simp only [hz, ne_eq, not_false_eq_true, decide_true, if_true, hskip] at hran
    have hr1 : Ready t1 [.movImm eax 1] (4 * n) := by
      refine hr.right (p := [_, _] ++ (right ++ (truthCode ++ [.jmp 5]))) ?_
      rw [size_append, hskip]
      exact hran
    rcases ran_movImm (r := 4 * n) hr1.code with ⟨t2, hran2, hv2⟩
    refine ⟨t2, ?_, hv2.trans (some.inj hv)⟩
    exact hran.trans hran2

/-- A strict operator needs its right operand. -/
theorem BinOp.run_none (hop : op.strict = true) (x : BitVec 32) : op.run x none = none := by
  cases op <;> first | rfl | exact absurd hop (by decide)

/-- An operator and the code of its right operand. -/
theorem ran_bin {right : List Instr} (hright : Evaluates right slot env n o)
    (hv : op.run (s.reg eax) o = some v) (hr : Ready s (genBin op right) (4 * (n + 1)))
    (hh : Holds slot env s) :
    ∃ t, Ran s t (size (genBin op right)) (4 * (n + 1)) ∧ t.reg eax = v := by
  by_cases hop : op.strict = true
  · have hgen : genBin op right = [.push eax] ++ (right ++ popCode op) := by
      cases op <;> first | rfl | exact absurd hop (by decide)
    have ho : ∃ y, o = some y := by
      cases o with
      | some y => exact ⟨y, rfl⟩
      | none => exact absurd hv (by rw [BinOp.run_none hop]; exact (some_ne_none v).symm)
    rcases ho with ⟨y, rfl⟩
    rw [hgen] at hr ⊢
    exact ran_strict hop hright hv hr hh
  · have hr' := hr.mono (r := 4 * n) (by omega)
    have hcase : op = .land ∨ op = .lor := by
      cases op <;> first | exact Or.inl rfl | exact Or.inr rfl | exact absurd rfl hop
    rcases hcase with rfl | rfl
    · rcases ran_land hright hv hr' hh with ⟨t, hran, ht⟩
      exact ⟨t, hran.mono (by omega), ht⟩
    · rcases ran_lor hright hv hr' hh with ⟨t, hran, ht⟩
      exact ⟨t, hran.mono (by omega), ht⟩

/-! ### Expressions -/

theorem evaluates_var (name : List UInt8) :
    Evaluates (gen slot (.var name)) slot env 0 (env name) := by
  intro v hv s hr hh
  rcases hh name v hv with ⟨-, h2, h3⟩
  have hexec : exec (s.skip 6) (.load eax (.mem (some ebp) (slot name))) =
      some ((s.skip 6).set eax v) := by
    show ((if (s.reg ebp + slot name).toNat + 4 ≤ 2 ^ 32 then
      some (BitVec.ofNat 32 (load s.mem (s.reg ebp + slot name).toNat 4)) else none).map _) = _
    rw [if_pos h2, h3, BitVec.ofNat_toNat, BitVec.setWidth_eq]
    rfl
  have hlen : (encode (.load eax (.mem (some ebp) (slot name)))).length = 6 := by
    simp only [encode, encodeRm_ebp, List.length_cons, length_leBytes]
  have hsize : size (gen slot (.var name)) = 6 := by
    simp only [gen, size_cons, hlen, size_nil]
  rw [hsize]
  exact ⟨(s.skip 6).set eax v,
    ⟨hr.code.reaches (by rw [hlen]; exact hexec), rfl, rfl, rfl, fun _ _ => rfl⟩,
    Cpu.reg_set_self _ _ _⟩

theorem computes_neg (s : Cpu) : Computes [.neg (.reg eax)] s (-s.reg eax) :=
  ⟨{ (s.skip 2).set eax (-s.reg eax) with flags := some (subFlags 0 (s.reg eax)) }, rfl,
    Cpu.reg_set_self (s.skip 2) eax _, rfl, rfl⟩

theorem computes_not (s : Cpu) : Computes [.not (.reg eax)] s (~~~s.reg eax) :=
  ⟨(s.skip 2).set eax (~~~s.reg eax), rfl, Cpu.reg_set_self _ _ _, rfl, rfl⟩

/-- Quiet code behind an operand. -/
theorem evaluates_then {f : BitVec 32 → BitVec 32} (hq : ∀ i ∈ js, i.quiet = true)
    (hj : ∀ s, Computes js s (f (s.reg eax))) (h : Evaluates is slot env n o) :
    Evaluates (is ++ js) slot env n (o.map f) := by
  intro v hv s hr hh
  rcases map_eq_some_iff.mp hv with ⟨x, hx, rfl⟩
  rcases h x hx s hr.left hh with ⟨t, hran, ht⟩
  have hr1 := hr.right hran
  rcases hj t with ⟨u, hu, hv, hsp, hbp⟩
  have hran1 := Ran.of_execs hq hr1.code hu hsp hbp (4 * n)
  refine ⟨u, ?_, by rw [hv, ht]⟩
  rw [size_append]
  exact hran.trans hran1

/-- The code of an expression computes its value. -/
theorem evaluates_gen (slot : List UInt8 → BitVec 32) (env : List UInt8 → Option (BitVec 32))
    (e : Expr) : Evaluates (gen slot e) slot env e.ops (e.eval env) := by
  induction e with
  | lit w =>
    intro v hv s hr _
    rcases ran_movImm (r := 4 * 0) hr.code with ⟨t, hran, ht⟩
    exact ⟨t, hran, ht.trans (some.inj hv)⟩
  | var name => exact evaluates_var name
  | neg e ih => exact evaluates_then (by decide) computes_neg ih
  | not e ih => exact evaluates_then (by decide) computes_not ih
  | bin op a b iha ihb =>
    intro v hv s hr hh
    rcases bind_eq_some_iff.mp hv with ⟨x, hx, hv⟩
    rcases iha x hx s (hr.left.mono (by simp only [Expr.ops]; omega)) hh with ⟨t, hran, ht⟩
    have hran' := hran.mono (m := 4 * (Expr.bin op a b).ops) (by simp only [Expr.ops]; omega)
    have hr1 := (hr.right hran').mono (r := 4 * (b.ops + 1)) (by simp only [Expr.ops]; omega)
    rcases ran_bin ihb (by rw [ht]; exact hv) hr1 (hh.ran hran) with ⟨u, hran2, hu⟩
    refine ⟨u, ?_, hu⟩
    rw [gen, size_append]
    exact hran'.trans (hran2.mono (by simp only [Expr.ops]; omega))

end SysRust.Rc
