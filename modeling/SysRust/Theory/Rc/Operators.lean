import Mathlib.Tactic.IntervalCases
import SysRust.Theory.Rc.Parses

/-!
# Parsing Operators and Operands

What the parser does at a single operator and at a single operand. The
functions of the precedence chain differ in their operators only, and so do
the branches of `parse_binops`: `BinOp.parse` is what they have in common.
Given that the right operand compiles, the operator does, with the code of
`genBin`; the forward jumps of `&&` and `||` are patched on the way.

## Main definitions

* `levelCall`, `loopCall`, `binopsCall`: The functions of the parser by level.
* `BinOp.parse`: What the parser does at an operator.
* `OpCompiles`: An operator and its right operand compile.
* `Stops`: The tokens that end an expression.
* `Known`, `slotOf`: The variables in the frame.

## Theorems

* `body_loop`, `body_binops`: The parser at an operator.
* `opCompiles`: An operator whose right operand compiles.
* `body_loop_stop`, `body_binops_stop`: The parser behind the last operand.
* `emitted_loadSym`, `parses_unary_of_primary`: Operands.
-/

namespace SysRust.Rc

open X86 Emitter List

-- What the emitter writes is known from `Emits`; its code is not looked at.
attribute [local irreducible] Emitter.bytes Emitter.byte Emitter.dword Emitter.patchDword

/-! ### Operators -/

/-- The function that parses operands of a level. -/
def levelCall : Nat → Call
  | 0 => .or
  | 1 => .andExpr
  | 2 => .bitor
  | 3 => .bitxor
  | 4 => .bitand
  | 5 => .equal
  | 6 => .relational
  | 7 => .shift
  | 8 => .addExpr
  | 9 => .mul
  | _ => .unary

/-- The loop over the operators of a level. -/
def loopCall : Nat → Call
  | 0 => .orLoop
  | 1 => .andLoop
  | 2 => .bitorLoop
  | 3 => .bitxorLoop
  | 4 => .bitandLoop
  | 5 => .equalLoop
  | 6 => .relationalLoop
  | 7 => .shiftLoop
  | 8 => .addLoop
  | _ => .mulLoop

/-- What the emitter writes behind the operands of a strict operator. -/
def BinOp.emit : BinOp → Emitter → Emitter
  | .mul => imul REG_EAX REG_ECX
  | .div => idivEcx
  | .rem => fun e => movRegReg REG_EAX REG_EDX (idivEcx e)
  | .add => Emitter.add REG_EAX REG_ECX
  | .sub => Emitter.sub REG_EAX REG_ECX
  | .shl => Emitter.shl REG_EAX
  | .shr => Emitter.shr REG_EAX
  | .lt => compare CC_L
  | .gt => compare CC_G
  | .le => compare CC_LE
  | .ge => compare CC_GE
  | .eq => compare CC_E
  | .ne => compare CC_NE
  | .band => Emitter.and REG_EAX REG_ECX
  | .bxor => Emitter.xor REG_EAX REG_ECX
  | .bor => Emitter.or REG_EAX REG_ECX
  | .land => id
  | .lor => id

/-- How the parser treats an operator. -/
def BinOp.parse (self : Self) (operand : Call) (op : BinOp) (s : Compiler) : Option Compiler :=
  match op with
  | .lor => logicalOr self operand s
  | .land => logicalAnd self operand s
  | .add => additive self (Emitter.add REG_EAX REG_ECX) s
  | .sub => additive self (Emitter.sub REG_EAX REG_ECX) s
  | op => binary self operand op.emit s

variable {s : Compiler} {l : Nat} {c : Call} {l' : Lexer} {op : BinOp} {right : List Instr}
  {t : Tok}

/-- The loop of a level at one of its operators. -/
theorem body_loop (self : Self) (op : BinOp) (ht : s.lex.tok = op.tok) :
    body self (loopCall op.level) s =
      (op.parse self (levelCall (op.level + 1)) s).bind (self (loopCall op.level)) := by
  cases op <;>
    simp only [BinOp.tok] at ht <;>
    simp [body, loopCall, levelCall, BinOp.level, BinOp.parse, BinOp.emit, parseMulLoop,
      parseAddLoop, parseShiftLoop, parseRelationalLoop, parseEqualLoop, parseBitandLoop,
      parseBitxorLoop, parseBitorLoop, parseAndLoop, parseOrLoop, Compiler.tok, ht, mulOp,
      additiveOp, shiftOp, relationalOp, equalityOp]

/-- A function of the chain parses an operand of the next level, and then
    goes over its operators. -/
theorem body_level (self : Self) (hl : l < 10) (he : s.errors = []) :
    body self (levelCall l) s = (self (levelCall (l + 1)) s).bind (self (loopCall l)) := by
  interval_cases l <;>
    simp only [body, levelCall, loopCall, parseOr, parseAndExpr, parseBitor, parseBitxor,
      parseBitand, parseEqual, parseRelational, parseShift, parseAddExpr, parseMul, Rc.level,
      hadError_false he, Bool.false_eq_true, if_false]

/-- The function `parse_binops` calls for a right operand. -/
def binopsCall : BinOp → Call
  | .lor => .or
  | .land => .andExpr
  | .bor => .bitor
  | op => levelCall (op.level + 1)

theorem body_binops (self : Self) (op : BinOp) (ht : s.lex.tok = op.tok) (he : s.errors = []) :
    body self .binops s = (op.parse self (binopsCall op) s).bind (self .binops) := by
  cases op <;>
    simp only [BinOp.tok] at ht <;>
    simp [body, parseBinops, hadError_false he, binop, binopsCall, levelCall, BinOp.level,
      BinOp.parse, BinOp.emit, Compiler.tok, ht, mulOp, additiveOp, shiftOp, relationalOp,
      equalityOp]

theorem emits_compare (cc : Fin 16) : Emits (compare cc.val) (compareCode cc) := by
  show Emits (fun e => movzxEaxAl (setcc cc.val REG_EAX (cmp REG_EAX REG_ECX e))) _
  exact (emits_cmp.comp (emits_setcc cc)).comp emits_movzxEaxAl

theorem emits_truth : Emits truth truthCode := by
  show Emits (fun e => movzxEaxAl (setcc (5 : Fin 16).val REG_EAX (cmpEaxImm 0 e))) _
  exact ((emits_cmpEaxImm 0).comp (emits_setcc 5)).comp emits_movzxEaxAl

theorem emits_op (op : BinOp) (hop : op.strict = true) : Emits op.emit (opCode op) := by
  cases op <;> simp only [BinOp.strict, Bool.false_eq_true] at hop
  case mul | div | add | sub | shl | shr | band | bxor | bor => exact fun _ => rfl
  case rem =>
      have h := emits_idivEcx.comp emits_movEaxEdx
      exact h
  case lt => exact emits_compare 12
  case gt => exact emits_compare 15
  case le => exact emits_compare 14
  case ge => exact emits_compare 13
  case eq => exact emits_compare 4
  case ne => exact emits_compare 5

theorem emits_popCode (op : BinOp) (hop : op.strict = true) :
    Emits (fun e => op.emit (popReg REG_EAX (movRegReg REG_ECX REG_EAX e))) (popCode op) := by
  have h := (emits_movRegReg.comp emits_popReg).comp (emits_op op hop)
  exact h

/-- Parsing an operator returns, with the code of the operator behind the
    left operand. -/
def OpCompiles (op : BinOp) (c : Call) (s : Compiler) (l' : Lexer) (right : List Instr) : Prop :=
  ∃ N s', (∀ n, N ≤ n → op.parse (parse n) c s = some s') ∧ Emitted s s' (genBin op right) ∧
    s'.lex = l' ∧ s'.ptrScale = 0

theorem opCompiles_binary (hop : op.strict = true)
    (hc : Compiles c (s.next.asm (pushReg REG_EAX)) l' right) :
    ∃ N s', (∀ n, N ≤ n → binary (parse n) c op.emit s = some s') ∧
      Emitted s s' ([.push eax] ++ (right ++ popCode op)) ∧ s'.lex = l' ∧ s'.ptrScale = 0 := by
  rcases hc with ⟨s1, ⟨N, hN⟩, hem, hlex, hscale⟩
  refine ⟨N, s1.asm (fun e => op.emit (popReg REG_EAX (movRegReg REG_ECX REG_EAX e))),
    fun n hn => ?_, ?_, hlex, hscale⟩
  · rw [binary, hN n hn]
    rfl
  · have h0 : Emitted s (s.next.asm (pushReg REG_EAX)) [.push eax] :=
      ⟨rfl, emits_pushReg.grows s.emit⟩
    exact h0.trans (hem.trans (emitted_asm (emits_popCode op hop) s1))

/-- Behind a number, sums are parsed like the other operators. -/
theorem parse_binary (hop : op.strict = true) (hs : s.ptrScale = 0)
    (hmul : op = .add ∨ op = .sub → c = .mul) (self : Self) :
    op.parse self c s = binary self c op.emit s := by
  have hself : s.setScale 0 = s := by rw [Compiler.setScale, ← hs]
  cases op <;> simp only [BinOp.strict, Bool.false_eq_true] at hop
  case add | sub =>
      rw [hmul (by decide), BinOp.parse, additive, hself]
      simp only [hs]
      rfl
  all_goals rfl

theorem opCompiles_land
    (hc : Compiles c ((s.next.asm (cmpEaxImm 0)).hole (jccPlaceholder CC_E)).1 l' right) :
    OpCompiles .land c s l' right := by
  rcases hc with ⟨s1, ⟨N, hN⟩, hem, hlex, hscale⟩
  set r := (s.next.asm (cmpEaxImm 0)).hole (jccPlaceholder CC_E) with hr
  have hhole : Hole (cmpEaxImm 0 s.emit) r.1.emit (.jcc 4) _ r.2 :=
    hole_jccPlaceholder 4 (cmpEaxImm 0 s.emit)
  refine ⟨N, s1.asm (fun e => patchHere r.2 (truth e)), fun n hn => ?_, ⟨?_, ?_⟩, hlex, hscale⟩
  · simp only [BinOp.parse, logicalAnd]
    rw [← hr, hN n hn]
    rfl
  · exact hem.tables
  · have hcmp := (emits_cmpEaxImm 0).grows s.emit
    have htruth := emits_truth.grows s1.emit
    have hafter := ((hcmp.trans hhole.grows).trans hem.grows).trans htruth
    refine hhole.patch [_] (right ++ truthCode) (fun ho => ?_) ?_
    · have ho1 := (hem.grows.2 (htruth.2 ho).1).1
      exact ⟨ho1, hcmp.pos (hhole.grows.2 ho1).1⟩
    · simpa only [assemble_append, assemble_cons, assemble_nil, append_nil,
        append_assoc] using hafter

/-- The code of `||` up to the jump over the other case, which goes by `d`. -/
def lorHead (right : List Instr) (d : BitVec 32) : List Instr :=
  .aluImm .cmp (.reg eax) 0 ::
    .jcc 5 (BitVec.ofNat 32 (size (right ++ (truthCode ++ [.jmp d])))) :: (right ++ truthCode)

theorem genBin_lor (right : List Instr) :
    genBin .lor right = lorHead right 0 ++ .jmp (BitVec.ofNat 32 (size [.movImm eax 1])) ::
      [.movImm eax 1] := by
  simp only [genBin, lorHead, cons_append, nil_append, append_assoc, size_append]
  rfl

theorem opCompiles_lor
    (hc : Compiles c ((s.next.asm (cmpEaxImm 0)).hole (jccPlaceholder CC_NE)).1 l' right) :
    OpCompiles .lor c s l' right := by
  rcases hc with ⟨s1, ⟨N, hN⟩, hem, hlex, hscale⟩
  set r := (s.next.asm (cmpEaxImm 0)).hole (jccPlaceholder CC_NE) with hr
  have hhole : Hole (cmpEaxImm 0 s.emit) r.1.emit (.jcc 5) _ r.2 :=
    hole_jccPlaceholder 5 (cmpEaxImm 0 s.emit)
  set t := (s1.asm truth).hole jmpPlaceholder with ht
  have hend : Hole (truth s1.emit) t.1.emit .jmp _ t.2 := hole_jmpPlaceholder (truth s1.emit)
  refine ⟨N, t.1.asm (fun e => patchHere t.2 (movRegImm REG_EAX 1 (patchHere r.2 e))),
    fun n hn => ?_, ⟨hem.tables, ?_⟩, hlex, hscale⟩
  · simp only [BinOp.parse, logicalOr]
    rw [← hr, hN n hn]
    rfl
  have hcmp := (emits_cmpEaxImm 0).grows s.emit
  have htruth := emits_truth.grows s1.emit
  have hbefore := ((hcmp.trans hhole.grows).trans hem.grows).trans htruth
  -- The first jump leads behind the second one, whose target is not known yet.
  have h1 : Grows s.emit (patchHere r.2 t.1.emit) (assemble (lorHead right 0 ++ [.jmp 0])) := by
    have hafter : Grows s.emit t.1.emit (assemble ([.aluImm .cmp (.reg eax) 0] ++
        .jcc 5 0 :: (right ++ (truthCode ++ [.jmp 0])))) := by
      simpa only [assemble_append, assemble_cons, assemble_nil, append_nil,
        append_assoc] using hbefore.trans hend.grows
    have hp := hhole.patch _ _ (fun ho => by
      have ho1 := (hem.grows.2 (htruth.2 (hend.grows.2 ho).1).1).1
      exact ⟨ho1, hcmp.pos (hhole.grows.2 ho1).1⟩) hafter
    simpa only [lorHead, cons_append, nil_append, append_assoc] using hp
  have hmov := (emits_movRegImm 1).grows (patchHere r.2 t.1.emit)
  rw [genBin_lor]
  refine hend.patch _ _ (fun ho => ?_) ?_
  · have ho1 := (hmov.2 ho).1
    rw [overflow_patchHere] at ho1
    refine ⟨ho1, ?_⟩
    rw [hbefore.pos (hend.grows.2 ho1).1]
    simp only [lorHead, size, assemble_cons, assemble_append, assemble_nil, append_nil,
      length_append, Nat.add_assoc]
    rfl
  · simpa only [assemble_append, assemble_cons, assemble_nil, append_nil,
      append_assoc] using h1.trans hmov

/-- An operator whose right operand compiles. Which state the operand is
    parsed in depends on the operator. -/
theorem opCompiles {m : Lexer} {P : List Instr → Prop} (hs : s.ptrScale = 0)
    (hmul : op = .add ∨ op = .sub → c = .mul)
    (hc : ∀ s0, s0.tables = s.tables → s0.lex = s.lex.next →
      ∃ right, P right ∧ Compiles c s0 m right) : ∃ right, P right ∧ OpCompiles op c s m right := by
  cases op
  case land =>
      rcases hc ((s.next.asm (cmpEaxImm 0)).hole (jccPlaceholder CC_E)).1 rfl rfl with
        ⟨right, hp, h⟩
      exact ⟨right, hp, opCompiles_land h⟩
  case lor =>
      rcases hc ((s.next.asm (cmpEaxImm 0)).hole (jccPlaceholder CC_NE)).1 rfl rfl with
        ⟨right, hp, h⟩
      exact ⟨right, hp, opCompiles_lor h⟩
  all_goals
    rcases hc (s.next.asm (pushReg REG_EAX)) rfl rfl with ⟨right, hp, h⟩
    refine ⟨right, hp, ?_⟩
    simp only [OpCompiles, parse_binary rfl hs hmul]
    exact opCompiles_binary rfl h

/-! ### Where an expression ends -/

/-- Tokens that would go on with an expression in another way than by one of
    its operators: a postfix, a call or an assignment. -/
def Tok.plain : Tok → Bool
  | .lbracket => false
  | .dot => false
  | .arrow => false
  | .as => false
  | .lparen => false
  | .assign => false
  | .plusEq => false
  | .minusEq => false
  | .starEq => false
  | .slashEq => false
  | _ => true

/-- The token ends an expression whose operators are of level `l` or above. -/
def Stops (l : Nat) (t : Tok) : Prop := t.plain = true ∧ ∀ op : BinOp, op.tok = t → op.level < l

theorem plain_tok (op : BinOp) : op.tok.plain = true := by
  cases op <;> rfl

theorem tok_injective {op' : BinOp} (h : op.tok = op'.tok) : op = op' := by
  cases op <;> cases op' <;> first | rfl | exact absurd h (by decide)

theorem stops_tok (h : op.level < l) : Stops l op.tok :=
  ⟨plain_tok op, fun op' h' => by rw [tok_injective h']; exact h⟩

theorem Stops.mono {l' : Nat} (h : Stops l t) (hl : l ≤ l') : Stops l' t :=
  ⟨h.1, fun op hop => Nat.lt_of_lt_of_le (h.2 op hop) hl⟩

/-- The token is none of the operators of a level. -/
def NotOf (l : Nat) (t : Tok) : Prop := ∀ op : BinOp, op.level = l → t ≠ op.tok

theorem Stops.notOf {k : Nat} (h : Stops l t) (hl : l ≤ k) : NotOf k t := by
  intro op hop h'
  have := h.2 op h'.symm
  omega

theorem equalityOp_none (h : NotOf 5 t) : equalityOp t = none := by
  unfold equalityOp
  split
  · exact absurd rfl (h .eq rfl)
  · exact absurd rfl (h .ne rfl)
  · rfl

theorem relationalOp_none (h : NotOf 6 t) : relationalOp t = none := by
  unfold relationalOp
  split
  · exact absurd rfl (h .lt rfl)
  · exact absurd rfl (h .gt rfl)
  · exact absurd rfl (h .le rfl)
  · exact absurd rfl (h .ge rfl)
  · rfl

theorem shiftOp_none (h : NotOf 7 t) : shiftOp t = none := by
  unfold shiftOp
  split
  · exact absurd rfl (h .shl rfl)
  · exact absurd rfl (h .shr rfl)
  · rfl

theorem additiveOp_none (h : NotOf 8 t) : additiveOp t = none := by
  unfold additiveOp
  split
  · exact absurd rfl (h .add rfl)
  · exact absurd rfl (h .sub rfl)
  · rfl

theorem mulOp_none (h : NotOf 9 t) : mulOp t = none := by
  unfold mulOp
  split
  · exact absurd rfl (h .mul rfl)
  · exact absurd rfl (h .div rfl)
  · exact absurd rfl (h .rem rfl)
  · rfl

/-- A level's loop ends at a token that is not one of its operators. -/
theorem body_loop_stop (self : Self) (hl : l < 10) (h : NotOf l s.lex.tok) :
    body self (loopCall l) s = some s := by
  interval_cases l
  · exact if_neg (h .lor rfl)
  · exact if_neg (h .land rfl)
  · exact if_neg (h .bor rfl)
  · exact if_neg (h .bxor rfl)
  · exact if_neg (h .band rfl)
  · simp only [body, loopCall, parseEqualLoop, Compiler.tok, equalityOp_none h]
  · simp only [body, loopCall, parseRelationalLoop, Compiler.tok, relationalOp_none h]
  · simp only [body, loopCall, parseShiftLoop, Compiler.tok, shiftOp_none h]
  · simp only [body, loopCall, parseAddLoop, Compiler.tok, additiveOp_none h]
  · simp only [body, loopCall, parseMulLoop, Compiler.tok, mulOp_none h]

/-- `parse_binops` ends at a token that is no operator. -/
theorem body_binops_stop (self : Self) (he : s.errors = []) (h : Stops 0 s.lex.tok) :
    body self .binops s = some s := by
  have h0 := h.notOf (k := 0) (Nat.zero_le _)
  have h1 := h.notOf (k := 1) (Nat.zero_le _)
  have h2 := h.notOf (k := 2) (Nat.zero_le _)
  have h3 := h.notOf (k := 3) (Nat.zero_le _)
  have h4 := h.notOf (k := 4) (Nat.zero_le _)
  have hbinop : binop self s = none := by
    simp only [binop, Compiler.tok]
    split
    · exact absurd ‹_› (h0 .lor rfl)
    · exact absurd ‹_› (h1 .land rfl)
    · exact absurd ‹_› (h2 .bor rfl)
    · exact absurd ‹_› (h3 .bxor rfl)
    · exact absurd ‹_› (h4 .band rfl)
    · simp only [equalityOp_none (h.notOf (Nat.zero_le _)),
        relationalOp_none (h.notOf (Nat.zero_le _)), shiftOp_none (h.notOf (Nat.zero_le _)),
        additiveOp_none (h.notOf (Nat.zero_le _)), mulOp_none (h.notOf (Nat.zero_le _))]
  simp only [body, parseBinops, hadError_false he, hbinop, Bool.false_eq_true, if_false]

/-! ### Operands -/

/-- The variable is an `i32` in the frame. -/
def Known (t : Symbols) (name : List UInt8) : Prop :=
  ∃ v, t.lookup (cut name) = some v ∧ (v.kind = .loc ∨ v.kind = .param) ∧ v.type = .int ∧
    v.isPtr = false ∧ v.structName = []

/-- Where the frame holds a variable. -/
def slotOf (t : Symbols) (name : List UInt8) : BitVec 32 :=
  match t.lookup (cut name) with
  | some v => v.offset
  | none => 0

theorem emitted_loadSym {name : List UInt8} {v : Symbol} (hv : s.syms.lookup (cut name) = some v)
    (hk : v.kind = .loc ∨ v.kind = .param) (hp : v.isPtr = false) (hst : v.structName = []) :
    Emitted s (emitLoadSym v s) (gen (slotOf s.syms) (.var name)) ∧
      (emitLoadSym v s).lex = s.lex ∧ (emitLoadSym v s).ptrScale = 0 := by
  have hslot : slotOf s.syms name = v.offset := by
    simp only [slotOf, hv]
  have heq : emitLoadSym v s = ((s.setScale 0).noStruct.asm (loadLocal REG_EAX v.offset)) := by
    rcases hk with hk | hk <;>
      simp only [emitLoadSym, hp, hst, hk, Bool.false_eq_true, if_false, if_true]
  rw [heq, gen, hslot]
  exact ⟨⟨rfl, (emits_loadLocal v.offset).grows s.emit⟩, rfl, rfl⟩

/-- A postfix ends at a plain token. -/
theorem body_postfxLoop_stop (self : Self) (he : s.errors = []) (h : s.lex.tok.plain = true) :
    body self .postfxLoop s = some s := by
  have hne (t : Tok) (ht : t.plain = false) : s.tok ≠ t := fun h' => by
    rw [show s.lex.tok = t from h', ht] at h
    exact Bool.false_ne_true h
  simp only [body, parsePostfixLoop, hadError_false he, Bool.false_eq_true, if_false]
  rw [if_neg (hne _ rfl), if_neg (fun h' => hne _ rfl h'.1), if_neg (fun h' => hne _ rfl h'.1),
    if_neg (hne _ rfl)]

/-- Tokens that `parse_unary` leaves to `parse_primary`. -/
def Tok.isPrefix : Tok → Bool
  | .minus => true
  | .bang => true
  | .star => true
  | .amp => true
  | _ => false

/-- An operand without a prefix and a postfix. -/
theorem parses_unary_of_primary {s' : Compiler} (he : s.errors = [])
    (ht : s.lex.tok.isPrefix = false) (h : Parses .primary s s') (he' : s'.errors = [])
    (ht' : s'.lex.tok.plain = true) : Parses .unary s s' := by
  have hloop : Parses .postfxLoop s' s' :=
    Parses.intro 0 (fun n _ => body_postfxLoop_stop (parse n) he' ht')
  have hpost : Parses .postfx s s' := by
    rcases h with ⟨N, hN⟩
    rcases hloop with ⟨M, hM⟩
    refine Parses.intro (N + M) (fun n hn => ?_)
    simp only [body, parsePostfix, hadError_false he, Bool.false_eq_true, if_false,
      hN n (by omega), Option.bind_some, hM n (by omega)]
  rcases hpost with ⟨N, hN⟩
  refine Parses.intro N (fun n hn => ?_)
  simp only [body, parseUnary, hadError_false he, Bool.false_eq_true, if_false, Compiler.tok]
  split
  · rename_i h'
    rw [h'] at ht
    exact absurd ht (by decide)
  · rename_i h'
    rw [h'] at ht
    exact absurd ht (by decide)
  · rename_i h'
    rw [h'] at ht
    exact absurd ht (by decide)
  · rename_i h'
    rw [h'] at ht
    exact absurd ht (by decide)
  · exact hN n hn

end SysRust.Rc
