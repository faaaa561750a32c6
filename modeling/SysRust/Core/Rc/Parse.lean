import SysRust.Core.Rc.Emit
import SysRust.Core.Rc.Lex
import SysRust.Core.Rc.Sym

/-!
# The Parser and Code Generator

`rc/parse.rs` is a single-pass compiler: a recursive-descent parser that
writes machine code as it goes. Every expression leaves its result in `eax`;
a binary operator pushes its left operand, evaluates the right one, and pops
the left one back.

The static variables of the source are the fields of `Compiler`, which is
passed along. Two things about them are arranged differently. `HAD_ERROR` is
set by `rc_error` and nothing else, so it is the list of the reported errors
not being empty. The loop stack is a list with the innermost loop first,
which is never longer than the source's array.

The functions of the source call each other without a bound that could be
read off the code, and so do its loops. A function here takes the
interpretation of the calls, `self`, as its argument, and `parse` ties the
knot: with `n` units of fuel it interprets calls that nest at most `n` deep,
and a turn of a loop is a call. `none` is a compiler that has run out of fuel.
The loops over declarations, fields, parameters and constants and the nesting
of types have fuel of their own, `turns`, and give `none` in the same way.

## Main definitions

* `Compiler`: The state of the compiler.
* `Call`: The functions and loops that call each other.
* `parseType`: Types.
* `parseExpr`, `parseBinops`, `parseOr`, ..., `parsePrimary`: Expressions.
* `parseStmt`, `parseIf`, `parseFor`, `parseMatch`, `parseLet`: Statements.
* `body`, `parse`: What a call does, and the fixed point.
* `parseFunction`, `parseGlobalStatic`, ..., `parseProgram`: Declarations.
* `rcCompile`: From a text to the bytes of a program.
-/

namespace SysRust.Rc

open Emitter

def MAX_TYPEDEFS : Nat := 32
def MAX_FIXUPS : Nat := 256
def MAX_GLOBAL_INITS : Nat := 128
def MAX_STRINGS : Nat := 128
def MAX_LOOP_DEPTH : Nat := 16
def MAX_BREAKS : Nat := 32

structure TypedefEntry where
  name : List UInt8
  type : SymType
  isPtr : Bool
deriving DecidableEq

/-- A call whose target is not known yet. -/
structure Fixup where
  name : List UInt8
  patchPos : Nat
deriving DecidableEq

/-- An initialised static variable. -/
structure GlobalInit where
  addr : BitVec 32
  value : BitVec 32
deriving DecidableEq

/-- A string literal and the place its address has to go to. -/
structure StringEntry where
  text : List UInt8
  patchPos : Nat
deriving DecidableEq

/-- A loop whose body is being compiled. -/
structure LoopCtx where
  continueTarget : Nat
  breakPatches : List Nat
deriving DecidableEq

/-- What is known of the structure in `eax`, for `.` and `->`. -/
structure ExprStruct where
  name : List UInt8
  isPtr : Bool
  kind : SymKind
  offset : BitVec 32
  addr : BitVec 32
deriving DecidableEq

/-- The state of the compiler. -/
structure Compiler where
  emit : Emitter
  lex : Lexer
  syms : Symbols
  typedefs : List TypedefEntry
  errors : List (Nat × String)
  ptrScale : Nat
  fixups : List Fixup
  globalInits : List GlobalInit
  strings : List StringEntry
  loops : List LoopCtx
  localOffset : BitVec 32
  exprStruct : ExprStruct
  isArray : Bool
  arrayCount : BitVec 32
  parsedStructName : List UInt8
  globalOffset : BitVec 32

namespace Compiler

def hadError (s : Compiler) : Bool := !s.errors.isEmpty

/-- Report an error at the line of the current token. -/
def rcError (msg : String) (s : Compiler) : Compiler :=
  { s with errors := s.errors ++ [(s.lex.tokLine, msg)] }

def tok (s : Compiler) : Tok := s.lex.tok

def next (s : Compiler) : Compiler := { s with lex := s.lex.next }

def expect (t : Tok) (s : Compiler) : Compiler := { s with lex := s.lex.expect t }

/-- Consume the token if it is `t`. -/
def skip (t : Tok) (s : Compiler) : Compiler := if s.tok = t then s.next else s

def pos (s : Compiler) : Nat := s.emit.pos

/-- Emit code. -/
def asm (f : Emitter → Emitter) (s : Compiler) : Compiler := { s with emit := f s.emit }

/-- Emit a jump with a placeholder. -/
def hole (f : Emitter → Emitter × Nat) (s : Compiler) : Compiler × Nat :=
  ({ s with emit := (f s.emit).1 }, (f s.emit).2)

def sym (f : Symbols → Symbols) (s : Compiler) : Compiler := { s with syms := f s.syms }

def setScale (n : Nat) (s : Compiler) : Compiler := { s with ptrScale := n }

/-- Forget about the structure in `eax`. -/
def noStruct (s : Compiler) : Compiler :=
  { s with exprStruct := { s.exprStruct with name := [] } }

/-- Enough turns for a loop that consumes a token in each. -/
def turns (s : Compiler) : Nat := s.lex.cur.src.length + 2

def addFixup (name : List UInt8) (patchPos : Nat) (s : Compiler) : Compiler :=
  if s.fixups.length < MAX_FIXUPS then
    { s with fixups := s.fixups ++ [{ name := cut name, patchPos := patchPos }] }
  else s.rcError "too many forward references"

def addString (text : List UInt8) (patchPos : Nat) (s : Compiler) : Compiler :=
  if s.strings.length < MAX_STRINGS then
    { s with strings := s.strings ++ [{ text := text, patchPos := patchPos }] }
  else s.rcError "too many string literals"

/-- Enter a loop, unless the stack is full. -/
def loopPush (contTarget : Nat) (s : Compiler) : Compiler :=
  if s.loops.length < MAX_LOOP_DEPTH then
    { s with loops := { continueTarget := contTarget, breakPatches := [] } :: s.loops }
  else s

/-- Let every jump with a placeholder in the list lead here. -/
def patchAll (ps : List Nat) (s : Compiler) : Compiler :=
  ps.foldl (fun s p => s.asm (patchHere p)) s

/-- Leave the innermost loop and patch its breaks. -/
def loopPop (s : Compiler) : Compiler :=
  match s.loops with
  | [] => s
  | ctx :: rest => patchAll ctx.breakPatches { s with loops := rest }

/-- Note a break of the innermost loop. Only 32 of them are kept. -/
def loopAddBreak (patchPos : Nat) (s : Compiler) : Compiler :=
  match s.loops with
  | [] => s.rcError "break outside loop"
  | ctx :: rest =>
    if ctx.breakPatches.length < MAX_BREAKS then
      { s with loops := { ctx with breakPatches := ctx.breakPatches ++ [patchPos] } :: rest }
    else s

def findTypedef (name : List UInt8) (s : Compiler) : Option TypedefEntry :=
  s.typedefs.find? (fun t => t.name == name)

/-- Give the newest symbol of that name a structure type. -/
def setSymStruct (varname sname : List UInt8) (s : Compiler) : Compiler :=
  s.sym (Symbols.modify varname (fun v => { v with structName := cut sname }))

/-- The name of the current token if it is an identifier. -/
def identName (s : Compiler) : Option (List UInt8) :=
  match s.tok with
  | .ident name => some name
  | _ => none

end Compiler

/-- The functions and loops that call each other. -/
inductive Call where
  | expr
  | binops
  | or
  | orLoop
  | andExpr
  | andLoop
  | bitor
  | bitorLoop
  | bitxor
  | bitxorLoop
  | bitand
  | bitandLoop
  | equal
  | equalLoop
  | relational
  | relationalLoop
  | shift
  | shiftLoop
  | addExpr
  | addLoop
  | mul
  | mulLoop
  | unary
  | postfx
  | postfxLoop
  | primary
  | moreArgs (name : List UInt8) (sym : Option Symbol) (argc : Nat)
  | stmt
  | block
  | stmts
  | ifStmt
  | arms (old matchLocal : BitVec 32) (breaks : List Nat) (nextArm : Nat)
  | arrayInit (elemSize : BitVec 32) (idx : BitVec 32)

/-- An interpretation of the calls. -/
abbrev Self := Call → Compiler → Option Compiler

/-! ### Types -/

/-- A type specifier: its base type and whether it is a pointer, or `none` if
    the current token does not start one. The outer `none` is a type that is
    nested deeper than the fuel. -/
def parseTypeIn : Nat → Compiler → Option (Option (SymType × Bool) × Compiler)
  | 0, _ => none
  | n + 1, s =>
    let s := { s with parsedStructName := [], isArray := false, arrayCount := 0 }
    match s.tok with
    | .star => do
        let s := s.next
        let s := if s.tok = .mut ∨ s.tok = .const then s.next else s
        let r ← parseTypeIn n s
        some (some ((r.1.getD (.int, false)).1, true), r.2)
    | .amp => do
        let s := s.next.skip .mut
        let r ← parseTypeIn n s
        some (some ((r.1.getD (.int, false)).1, true), r.2)
    | .lbracket => do
        let r ← parseTypeIn n s.next
        let s := r.2.expect .semi
        match s.tok with
        | .num v =>
          let s := { s with arrayCount := v }
          let s := s.next.expect .rbracket
          some (some ((r.1.getD (.int, false)).1, true), { s with isArray := true })
        | _ => some (none, s.rcError "expected array size")
    | .i32 => some (some (.int, false), s.next)
    | .u32 => some (some (.int, false), s.next)
    | .usize => some (some (.int, false), s.next)
    | .isize => some (some (.int, false), s.next)
    | .u8 => some (some (.char, false), s.next)
    | .bool => some (some (.char, false), s.next)
    | .void => some (some (.void, false), s.next)
    | .struct =>
      let s := s.next
      match s.tok with
      | .ident name => some (some (.int, false), { s with parsedStructName := cut name }.next)
      | _ => some (none, s.rcError "expected struct name")
    | .ident name =>
      match s.findTypedef name with
      | some td => some (some (td.type, td.isPtr), s.next)
      | none =>
        match s.syms.structDefLookup name with
        | some _ => some (some (.int, false), { s with parsedStructName := cut name }.next)
        | none => some (none, s)
    | _ => some (none, s)

def parseType (s : Compiler) : Option (Option (SymType × Bool) × Compiler) :=
  parseTypeIn s.turns s

/-! ### Calls and symbols -/

/-- Exchange two words on the stack. -/
def swapArgs (lo hi : BitVec 32) (e : Emitter) : Emitter :=
  let e := dword lo (bytes [0x8B, 0x84, 0x24] e)
  let e := dword hi (bytes [0x8B, 0x8C, 0x24] e)
  let e := dword lo (bytes [0x89, 0x8C, 0x24] e)
  dword hi (bytes [0x89, 0x84, 0x24] e)

/-- Reverse the arguments on the stack, as `cdecl` wants them. -/
def emitReverseArgs (argc : Nat) (e : Emitter) : Emitter :=
  (List.range (argc / 2)).foldl (fun e ai =>
    swapArgs (BitVec.ofNat 32 (ai * 4)) (BitVec.ofNat 32 ((argc - 1 - ai) * 4)) e) e

/-- The call instruction: a kernel function by its address, a function of the
    program by its position, and any other name when it is known. -/
def emitCall (name : List UInt8) (sym : Option Symbol) (s : Compiler) : Compiler :=
  let direct (target : BitVec 32) : Compiler :=
    let s := s.asm (byte 0xE8)
    s.asm (dword (target - BitVec.ofNat 32 (s.pos + 4)))
  let later : Compiler :=
    let s := s.asm (byte 0xE8)
    (s.asm (dword 0)).addFixup name s.pos
  match sym with
  | some v =>
    match v.kind with
    | .kernFunc => s.asm (callAbs v.addr)
    | .func => direct v.offset
    | _ => later
  | none => later

/-- Behind the arguments of a call. -/
def finishCall (name : List UInt8) (sym : Option Symbol) (argc : Nat) (s : Compiler) :
    Compiler :=
  let s := if argc > 1 then s.asm (emitReverseArgs argc) else s
  let s := emitCall name sym (s.expect .rparen)
  let s := if argc > 0 then s.asm (addEsp (BitVec.ofNat 32 (argc * 4))) else s
  (s.setScale 0).noStruct

/-- The arguments of a call and the call. -/
def emitFuncCall (self : Self) (name : List UInt8) (sym : Option Symbol) (s : Compiler) :
    Option Compiler :=
  if s.tok = .rparen then some (finishCall name sym 0 s)
  else do
    let s ← self .expr s
    self (.moreArgs name sym 1) (s.asm (pushReg REG_EAX))

/-- Another argument, if there is a comma. -/
def moreArgs (self : Self) (name : List UInt8) (sym : Option Symbol) (argc : Nat)
    (s : Compiler) : Option Compiler :=
  if s.tok = .comma then do
    let s ← self .expr s.next
    self (.moreArgs name sym (argc + 1)) (s.asm (pushReg REG_EAX))
  else some (finishCall name sym argc s)

/-- The size of the elements behind a pointer of this type. -/
def elemScale (type : SymType) : Nat := if type = .char then 1 else 4

/-- Load a symbol's value, and note whether it is a pointer or a structure. -/
def emitLoadSym (v : Symbol) (s : Compiler) : Compiler :=
  let s := s.setScale (if v.isPtr then elemScale v.type else 0)
  let s :=
    if v.structName = [] then s.noStruct
    else
      { s with exprStruct :=
        { name := cut v.structName
          isPtr := v.isPtr
          kind := v.kind
          offset := v.offset
          addr := v.addr } }
  match v.kind with
  | .const => (s.asm (movRegImm REG_EAX v.addr)).setScale 0
  | .loc => s.asm (loadLocal REG_EAX v.offset)
  | .param => s.asm (loadLocal REG_EAX v.offset)
  | .glob => s.asm (loadGlobal REG_EAX v.addr)
  | .func => s.asm (movRegImm REG_EAX (s.emit.base + v.offset))
  | .kernFunc => s.asm (movRegImm REG_EAX v.addr)

/-- Store `eax` in a variable. -/
def emitStoreSym (v : Symbol) (s : Compiler) : Compiler :=
  match v.kind with
  | .loc => s.asm (storeLocal v.offset REG_EAX)
  | .param => s.asm (storeLocal v.offset REG_EAX)
  | .glob => s.asm (storeGlobal v.addr REG_EAX)
  | _ => s

/-- The address of a variable, for what has one. -/
def emitAddr (kind : SymKind) (offset addr : BitVec 32) (s : Compiler) : Compiler :=
  match kind with
  | .loc => s.asm (leaEax offset)
  | .param => s.asm (leaEax offset)
  | .glob => s.asm (movRegImm REG_EAX addr)
  | _ => s

/-- Store `eax` behind the pointer in `ecx`, as a byte or as a word. -/
def storeThrough (asByte : Bool) (e : Emitter) : Emitter :=
  if asByte then storeIndirectByte REG_ECX REG_EAX e else storeIndirect REG_ECX REG_EAX e

/-- Load what `eax` points to, as a byte or as a word. -/
def loadThrough (asByte : Bool) (e : Emitter) : Emitter :=
  if asByte then loadIndirectByte REG_EAX REG_EAX e else loadIndirect REG_EAX REG_EAX e

/-- An assignment behind the pointer in `eax`; the token is the `=`. -/
def assignThrough (self : Self) (asByte : Bool) (s : Compiler) : Option Compiler := do
  let s ← self .expr (s.next.asm (pushReg REG_EAX))
  some (s.asm (fun e => storeThrough asByte (popReg REG_ECX e)))

/-- Add a field's offset to the address in `eax`. -/
def addField (f : StructField) (s : Compiler) : Compiler :=
  if (0 : BitVec 32).slt f.offset then
    s.asm (fun e => add REG_EAX REG_ECX (movRegImm REG_ECX f.offset e))
  else s

/-- The scale of a field's value. -/
def fieldScale (f : StructField) : Nat := if f.isPtr then elemScale f.type else 0

/-! ### Expressions -/

/-- A pointer behind a `*` that has been consumed: assigned to or read. -/
def parseDeref (self : Self) (s : Compiler) : Option Compiler :=
  let general (s : Compiler) : Option Compiler := do
    let s ← self .unary s
    if s.tok = .assign then assignThrough self (s.ptrScale == 1) s
    else self .binops ((s.asm (loadThrough (s.ptrScale == 1))).setScale 0)
  match s.tok with
  | .ident name =>
    match s.syms.lookup name with
    | some p =>
      let asByte := p.type == .char && p.isPtr
      let s := s.next
      if s.tok = .assign then do
        let s := emitLoadSym p s.next
        let s ← self .expr (s.asm (pushReg REG_EAX))
        some (s.asm (fun e => storeThrough asByte (popReg REG_ECX e)))
      else
        self .binops (((emitLoadSym p s).asm (loadThrough asByte)).setScale 0)
    | none => general s
  | _ => general s

/-- A field behind `.` or `->`, the token: `base` emits the address of the
    structure. -/
def parseMember (self : Self) (what : String) (v : Symbol) (base : Compiler → Compiler)
    (s : Compiler) : Option Compiler :=
  let s := s.next
  match s.tok with
  | .ident fname =>
    let s := s.next
    match Symbols.structFieldLookup (s.syms.structDefLookup v.structName) (cut fname) with
    | none => some (s.rcError "unknown struct field")
    | some f =>
      let s := addField f (base s)
      if s.tok = .assign then assignThrough self false s
      else
        self .binops ((s.asm (loadIndirect REG_EAX REG_EAX)).setScale (fieldScale f))
  | _ => some (s.rcError ("expected field name after " ++ what))

/-- The operation of a compound assignment. -/
def compoundOp : Tok → Option (Emitter → Emitter)
  | .plusEq => some (add REG_EAX REG_ECX)
  | .minusEq => some (sub REG_EAX REG_ECX)
  | .starEq => some (imul REG_EAX REG_ECX)
  | .slashEq => some idivEcx
  | _ => none

/-- A compound assignment; for a pointer the amount is scaled. -/
def parseCompound (self : Self) (v : Symbol) (op : Tok) (f : Emitter → Emitter)
    (s : Compiler) : Option Compiler := do
  let s := (emitLoadSym v s.next).asm (pushReg REG_EAX)
  let s ← self .expr s
  let s := s.asm (fun e => popReg REG_EAX (movRegReg REG_ECX REG_EAX e))
  let s :=
    if v.isPtr ∧ (op = .plusEq ∨ op = .minusEq) ∧ elemScale v.type > 1 then
      s.asm (fun e => imul REG_ECX REG_EDX
        (movRegImm REG_EDX (BitVec.ofNat 32 (elemScale v.type)) e))
    else s
  some (emitStoreSym v (s.asm f))

/-- An indexed variable, assigned to or read; the token is the `[`. -/
def parseIndexed (self : Self) (v : Symbol) (s : Compiler) : Option Compiler := do
  let asByte := v.type == .char
  let s := if v.isPtr then emitLoadSym v s else s.asm (leaEax v.offset)
  let s ← self .expr (s.asm (pushReg REG_EAX)).next
  let s := s.expect .rbracket
  let s :=
    if asByte then s
    else s.asm (fun e => imul REG_EAX REG_ECX (movRegImm REG_ECX 4 e))
  let s := s.asm (fun e => add REG_EAX REG_ECX (popReg REG_EAX (movRegReg REG_ECX REG_EAX e)))
  if s.tok = .assign then assignThrough self asByte s
  else self .binops (s.asm (loadThrough asByte))

/-- An expression that starts with a known identifier, which has been
    consumed. -/
def parseIdent (self : Self) (name : List UInt8) (v : Symbol) (s : Compiler) : Option Compiler :=
  if s.tok = .assign then do
    let s ← self .expr s.next
    some (emitStoreSym v s)
  else if s.tok = .dot ∧ v.structName ≠ [] then
    parseMember self "'.'" v (emitAddr v.kind v.offset v.addr) s
  else if s.tok = .arrow ∧ v.structName ≠ [] then
    parseMember self "'->'" v (emitLoadSym v) s
  else
    match compoundOp s.tok with
    | some f => parseCompound self v s.tok f s
    | none =>
      if s.tok = .lbracket then parseIndexed self v s
      else if s.tok = .lparen then do
        let s ← emitFuncCall self name (some v) s.next
        self .binops s
      else self .binops (emitLoadSym v s)

def parseExpr (self : Self) (s : Compiler) : Option Compiler :=
  if s.hadError then some s
  else
    match s.tok with
    | .star => parseDeref self s.next
    | .ident id =>
      let name := cut id
      match s.syms.lookup name with
      | some v => parseIdent self name v s.next
      | none =>
        let s := s.next
        if s.tok = .lparen then do
          let s ← emitFuncCall self name none s.next
          self .binops s
        else self .binops ((s.rcError "undefined symbol").asm (movRegImm REG_EAX 0))
    | _ => self .or s

/-- A binary operator whose operands are both evaluated; it is the token. -/
def binary (self : Self) (operand : Call) (f : Emitter → Emitter) (s : Compiler) :
    Option Compiler := do
  let s ← self operand (s.next.asm (pushReg REG_EAX))
  some (s.asm (fun e => f (popReg REG_EAX (movRegReg REG_ECX REG_EAX e))))

/-- The result of a comparison as 0 or 1. -/
def compare (cc : Nat) (e : Emitter) : Emitter :=
  movzxEaxAl (setcc cc REG_EAX (cmp REG_EAX REG_ECX e))

/-- Whether `eax` is not zero, as 0 or 1. -/
def truth (e : Emitter) : Emitter := movzxEaxAl (setcc CC_NE REG_EAX (cmpEaxImm 0 e))

/-- `||`, which is the token: if the left operand is not zero, the right one
    is skipped and the result is 1. -/
def logicalOr (self : Self) (operand : Call) (s : Compiler) : Option Compiler := do
  let r := (s.next.asm (cmpEaxImm 0)).hole (jccPlaceholder CC_NE)
  let s ← self operand r.1
  let t := (s.asm truth).hole jmpPlaceholder
  some (t.1.asm (fun e => patchHere t.2 (movRegImm REG_EAX 1 (patchHere r.2 e))))

/-- `&&`, which is the token: if the left operand is zero, the right one is
    skipped. -/
def logicalAnd (self : Self) (operand : Call) (s : Compiler) : Option Compiler := do
  let r := (s.next.asm (cmpEaxImm 0)).hole (jccPlaceholder CC_E)
  let s ← self operand r.1
  some (s.asm (fun e => patchHere r.2 (truth e)))

/-- `+` or `-`, which is the token. If the left operand is a pointer, the
    right one is scaled. -/
def additive (self : Self) (f : Emitter → Emitter) (s : Compiler) : Option Compiler := do
  let leftScale := s.ptrScale
  let s ← self .mul ((s.setScale 0).next.asm (pushReg REG_EAX))
  let s :=
    if leftScale > 1 then
      s.asm (fun e => imul REG_EAX REG_EDX (movRegImm REG_EDX (BitVec.ofNat 32 leftScale) e))
    else s
  let s := s.asm (fun e => f (popReg REG_EAX (movRegReg REG_ECX REG_EAX e)))
  some (if leftScale ≠ 0 then s.setScale leftScale else s)

/-- The condition code of an equality operator. -/
def equalityOp : Tok → Option Nat
  | .eq => some CC_E
  | .neq => some CC_NE
  | _ => none

/-- The condition code of a relational operator. -/
def relationalOp : Tok → Option Nat
  | .lt => some CC_L
  | .gt => some CC_G
  | .lte => some CC_LE
  | .gte => some CC_GE
  | _ => none

def shiftOp : Tok → Option (Emitter → Emitter)
  | .lshift => some (shl REG_EAX)
  | .rshift => some (shr REG_EAX)
  | _ => none

def additiveOp : Tok → Option (Emitter → Emitter)
  | .plus => some (add REG_EAX REG_ECX)
  | .minus => some (sub REG_EAX REG_ECX)
  | _ => none

def mulOp : Tok → Option (Emitter → Emitter)
  | .star => some (imul REG_EAX REG_ECX)
  | .slash => some idivEcx
  | .percent => some (fun e => movRegReg REG_EAX REG_EDX (idivEcx e))
  | _ => none

/-- One operator behind a complete operand, whatever its precedence. -/
def binop (self : Self) (s : Compiler) : Option (Option Compiler) :=
  match s.tok with
  | .or => some (logicalOr self .or s)
  | .and => some (logicalAnd self .andExpr s)
  | .pipe => some (binary self .bitor (Emitter.or REG_EAX REG_ECX) s)
  | .caret => some (binary self .bitand (Emitter.xor REG_EAX REG_ECX) s)
  | .amp => some (binary self .equal (Emitter.and REG_EAX REG_ECX) s)
  | t =>
    match equalityOp t, relationalOp t, shiftOp t, additiveOp t, mulOp t with
    | some cc, _, _, _, _ => some (binary self .relational (compare cc) s)
    | _, some cc, _, _, _ => some (binary self .shift (compare cc) s)
    | _, _, some f, _, _ => some (binary self .addExpr f s)
    | _, _, _, some f, _ => some (additive self f s)
    | _, _, _, _, some f => some (binary self .unary f s)
    | _, _, _, _, _ => none

/-- The operators behind an identifier: the right operand of each is parsed
    with the function of its own level or the next one. -/
def parseBinops (self : Self) (s : Compiler) : Option Compiler :=
  if s.hadError then some s
  else
    match binop self s with
    | some r => r.bind (self .binops)
    | none => some s

/-- A level of the precedence chain: an operand of the next level, and then
    the loop over the operators of this one. -/
def level (self : Self) (operand more : Call) (s : Compiler) : Option Compiler :=
  if s.hadError then some s else (self operand s).bind (self more)

def parseOr (self : Self) : Compiler → Option Compiler := level self .andExpr .orLoop

def parseOrLoop (self : Self) (s : Compiler) : Option Compiler :=
  if s.tok = .or then (logicalOr self .andExpr s).bind (self .orLoop) else some s

def parseAndExpr (self : Self) : Compiler → Option Compiler := level self .bitor .andLoop

def parseAndLoop (self : Self) (s : Compiler) : Option Compiler :=
  if s.tok = .and then (logicalAnd self .bitor s).bind (self .andLoop) else some s

def parseBitor (self : Self) : Compiler → Option Compiler := level self .bitxor .bitorLoop

def parseBitorLoop (self : Self) (s : Compiler) : Option Compiler :=
  if s.tok = .pipe then
    (binary self .bitxor (Emitter.or REG_EAX REG_ECX) s).bind (self .bitorLoop)
  else some s

def parseBitxor (self : Self) : Compiler → Option Compiler := level self .bitand .bitxorLoop

def parseBitxorLoop (self : Self) (s : Compiler) : Option Compiler :=
  if s.tok = .caret then
    (binary self .bitand (Emitter.xor REG_EAX REG_ECX) s).bind (self .bitxorLoop)
  else some s

def parseBitand (self : Self) : Compiler → Option Compiler := level self .equal .bitandLoop

def parseBitandLoop (self : Self) (s : Compiler) : Option Compiler :=
  if s.tok = .amp then
    (binary self .equal (Emitter.and REG_EAX REG_ECX) s).bind (self .bitandLoop)
  else some s

def parseEqual (self : Self) : Compiler → Option Compiler := level self .relational .equalLoop

def parseEqualLoop (self : Self) (s : Compiler) : Option Compiler :=
  match equalityOp s.tok with
  | some cc => (binary self .relational (compare cc) s).bind (self .equalLoop)
  | none => some s

def parseRelational (self : Self) : Compiler → Option Compiler :=
  level self .shift .relationalLoop

def parseRelationalLoop (self : Self) (s : Compiler) : Option Compiler :=
  match relationalOp s.tok with
  | some cc => (binary self .shift (compare cc) s).bind (self .relationalLoop)
  | none => some s

def parseShift (self : Self) : Compiler → Option Compiler := level self .addExpr .shiftLoop

def parseShiftLoop (self : Self) (s : Compiler) : Option Compiler :=
  match shiftOp s.tok with
  | some f => (binary self .addExpr f s).bind (self .shiftLoop)
  | none => some s

def parseAddExpr (self : Self) : Compiler → Option Compiler := level self .mul .addLoop

def parseAddLoop (self : Self) (s : Compiler) : Option Compiler :=
  match additiveOp s.tok with
  | some f => (additive self f s).bind (self .addLoop)
  | none => some s

def parseMul (self : Self) : Compiler → Option Compiler := level self .unary .mulLoop

def parseMulLoop (self : Self) (s : Compiler) : Option Compiler :=
  match mulOp s.tok with
  | some f => (binary self .unary f s).bind (self .mulLoop)
  | none => some s

/-- The prefix operators. -/
def parseUnary (self : Self) (s : Compiler) : Option Compiler :=
  if s.hadError then some s
  else
    match s.tok with
    | .minus => (self .unary s.next).map (fun s => s.asm (neg REG_EAX))
    | .bang => (self .unary s.next).map (fun s => s.asm (Emitter.not REG_EAX))
    | .star =>
      (self .unary s.next).map
        (fun s => (s.asm (loadThrough (s.ptrScale == 1))).setScale 0)
    | .amp =>
      let s := s.next.skip .mut
      match s.tok with
      | .ident name =>
        match s.syms.lookup name with
        | none => some (s.rcError "undefined variable").next
        | some v => some (emitAddr v.kind v.offset v.addr s.next)
      | _ => some (s.rcError "expected identifier after '&'")
    | _ => self .postfx s

def parsePostfix (self : Self) (s : Compiler) : Option Compiler :=
  if s.hadError then some s else (self .primary s).bind (self .postfxLoop)

/-- A field of the structure in `eax`, behind `.` or `->`, the token. -/
def postfixMember (self : Self) (what : String) (base : Compiler → Compiler) (s : Compiler) :
    Option Compiler :=
  let sdef := s.syms.structDefLookup s.exprStruct.name
  let s := s.next
  match s.tok with
  | .ident fname =>
    let s := s.next
    match Symbols.structFieldLookup sdef (cut fname) with
    | none => some (s.rcError "unknown struct field")
    | some f =>
      let s := addField f (base s)
      let s := (s.asm (loadIndirect REG_EAX REG_EAX)).setScale (fieldScale f)
      self .postfxLoop s.noStruct
  | _ => some (s.rcError ("expected field name after " ++ what))

/-- Indexing, fields and casts behind an operand. -/
def parsePostfixLoop (self : Self) (s : Compiler) : Option Compiler :=
  if s.hadError then some s
  else if s.tok = .lbracket then do
    let saveScale := s.ptrScale
    let s ← self .expr (s.next.asm (pushReg REG_EAX))
    let s := s.expect .rbracket
    let s :=
      if saveScale > 1 then
        s.asm (fun e => imul REG_EAX REG_ECX (movRegImm REG_ECX (BitVec.ofNat 32 saveScale) e))
      else s
    let s := s.asm (fun e => add REG_EAX REG_ECX (popReg REG_EAX (movRegReg REG_ECX REG_EAX e)))
    self .postfxLoop (s.asm (loadThrough (saveScale == 1)))
  else if s.tok = .arrow ∧ s.exprStruct.name ≠ [] ∧ s.exprStruct.isPtr = true then
    postfixMember self "'->'" id s
  else if s.tok = .dot ∧ s.exprStruct.name ≠ [] ∧ s.exprStruct.isPtr = false then
    postfixMember self "'.'"
      (emitAddr s.exprStruct.kind s.exprStruct.offset s.exprStruct.addr) s
  else if s.tok = .as then do
    let r ← parseType s.next
    let cast := r.1.getD (.int, false)
    self .postfxLoop (r.2.setScale (if cast.2 then elemScale cast.1 else 0))
  else some s

/-- A constant in `eax`; the literal is the token. -/
def literal (v : BitVec 32) (s : Compiler) : Compiler :=
  ((s.asm (movRegImm REG_EAX v)).setScale 0).noStruct.next

/-- Literals, identifiers, calls and groups. -/
def parsePrimary (self : Self) (s : Compiler) : Option Compiler :=
  if s.hadError then some s
  else
    match s.tok with
    | .num v => some (literal v s)
    | .true_ => some (literal 1 s)
    | .false_ => some (literal 0 s)
    | .str text =>
      let s := s.asm (byte 0xB8)
      let patch := s.pos
      let s := (s.asm (dword 0)).addString (text.takeWhile (· != 0)) patch
      some (s.setScale 1).noStruct.next
    | .ident id =>
      let name := cut id
      let v := s.syms.lookup name
      let s := s.next
      if s.tok = .lparen then emitFuncCall self name v s.next
      else
        match v with
        | some v => some (emitLoadSym v s)
        | none => some ((s.rcError "undefined symbol").asm (movRegImm REG_EAX 0))
    | .lparen => (self .expr s.next).map (fun s => s.expect .rparen)
    | _ => some (s.rcError "expected expression")

/-! ### Statements -/

/-- The constants of an enum. -/
def enumLoop : Nat → BitVec 32 → Compiler → Option Compiler
  | 0, _, _ => none
  | n + 1, value, s =>
    if s.tok = .rbrace ∨ s.tok = .eof ∨ s.hadError then some s
    else
      match s.tok with
      | .ident name =>
        let s := s.next
        let add (value : BitVec 32) (s : Compiler) : Option Compiler :=
          enumLoop n (value + 1)
            ((s.sym (Symbols.add (cut name) .const .int false 0 value)).skip .comma)
        if s.tok = .assign then
          let s := s.next
          match s.tok with
          | .num v => add v s.next
          | _ => some (s.rcError "expected integer value")
        else add value s
      | _ => some (s.rcError "expected enum constant name")

/-- An enum declaration; the token is `enum`. -/
def parseEnum (s : Compiler) : Option Compiler :=
  let s := s.next
  let s := if s.identName.isSome then s.next else s
  let s := s.expect .lbrace
  (enumLoop s.turns 0 s).map (fun s => s.expect .rbrace)

/-- The body of a match arm. -/
def parseArmBody (self : Self) (s : Compiler) : Option Compiler :=
  if s.tok = .lbrace then self .block s else self .stmt s

/-- Behind the body of an arm: a jump to the end of the match, as long as it
    can be noted. -/
def armEnd (breaks : List Nat) (s : Compiler) : Compiler × List Nat :=
  let s := s.skip .comma
  if breaks.length < 32 then
    let r := s.hole jmpPlaceholder
    (r.1, breaks ++ [r.2])
  else (s, breaks)

/-- The arms of a match. `nextArm` is the jump over the previous arm, or
    zero, and `breaks` are the jumps to the end. -/
def parseArms (self : Self) (old matchLocal : BitVec 32) (breaks : List Nat) (nextArm : Nat)
    (s : Compiler) : Option Compiler :=
  if s.tok ≠ .rbrace ∧ s.tok ≠ .eof ∧ s.hadError = false then
    let s := if nextArm ≠ 0 then s.asm (patchHere nextArm) else s
    if s.tok = .underscorePat then do
      let s ← parseArmBody self (s.next.expect .fatArrow)
      let r := armEnd breaks s
      self (.arms old matchLocal r.2 0) r.1
    else do
      let s ← self .expr s
      let h := (s.asm (fun e => cmp REG_ECX REG_EAX (loadLocal REG_ECX matchLocal e))).hole
        (jccPlaceholder CC_NE)
      let s ← parseArmBody self (h.1.expect .fatArrow)
      let r := armEnd breaks s
      self (.arms old matchLocal r.2 h.2) r.1
  else
    let s := s.expect .rbrace
    let s := if nextArm ≠ 0 then s.asm (patchHere nextArm) else s
    some { s.patchAll breaks with localOffset := old }

/-- Take a slot of the frame. -/
def takeSlot (size : BitVec 32) (s : Compiler) : Compiler :=
  { s with localOffset := s.localOffset - size }

/-- A match; the token is `match`. -/
def parseMatch (self : Self) (s : Compiler) : Option Compiler := do
  let old := s.localOffset
  let s ← self .expr s.next
  let s := takeSlot 4 s
  let s := (s.asm (storeLocal s.localOffset REG_EAX)).expect .lbrace
  self (.arms old s.localOffset [] 0) s

/-- An endless loop; the token is `loop`. -/
def parseLoop (self : Self) (s : Compiler) : Option Compiler := do
  let s := s.next
  let start := s.pos
  let s ← self .block (s.loopPush start)
  some (s.asm (jmpTo start)).loopPop

/-- A while loop; the token is `while`. -/
def parseWhile (self : Self) (s : Compiler) : Option Compiler := do
  let s := s.next
  let start := s.pos
  let s ← self .expr s
  let exit := (s.asm (cmpEaxImm 0)).hole (jccPlaceholder CC_E)
  let s ← self .block (exit.1.loopPush start)
  some (s.asm (fun e => patchHere exit.2 (jmpTo start e))).loopPop

/-- The test of a for loop, and behind it the step, which the test jumps
    over. Returns the jump out of the loop and where the step is. -/
def forHead (iterOff endOff : BitVec 32) (s : Compiler) : Compiler × Nat × Nat :=
  let condStart := s.pos
  let s := s.asm (fun e => pushReg REG_EAX (loadLocal REG_EAX iterOff e))
  let s := s.asm (fun e => popReg REG_EAX (movRegReg REG_ECX REG_EAX (loadLocal REG_EAX endOff e)))
  let exit := (s.asm (cmp REG_EAX REG_ECX)).hole (jccPlaceholder CC_GE)
  let skip := exit.1.hole jmpPlaceholder
  let updateStart := skip.1.pos
  let s := skip.1.asm (fun e => storeLocal iterOff REG_EAX
    (add REG_EAX REG_ECX (movRegImm REG_ECX 1 (loadLocal REG_EAX iterOff e))))
  let s := s.asm (fun e => patchHere skip.2 (jmpTo condStart e))
  (s, exit.2, updateStart)

/-- A for loop over a range; the token is `for`. -/
def parseFor (self : Self) (s : Compiler) : Option Compiler :=
  let s := s.next.sym Symbols.enterScope
  match s.tok with
  | .ident iter => do
      let s ← self .expr (s.next.expect .in_)
      let s := takeSlot 4 s
      let iterOff := s.localOffset
      let s := s.sym (Symbols.add (cut iter) .loc .int false iterOff 0)
      let s := (s.asm (storeLocal iterOff REG_EAX)).expect .doubleDot
      let s ← self .expr s
      let s := takeSlot 4 s
      let endOff := s.localOffset
      let h := forHead iterOff endOff (s.asm (storeLocal endOff REG_EAX))
      let s ← self .block (h.1.loopPush h.2.2)
      let s := s.asm (fun e => patchHere h.2.1 (jmpTo h.2.2 e))
      some (s.loopPop.sym Symbols.leaveScope)
  | _ => some (s.rcError "expected iterator variable")

/-- The elements of an array initialiser. -/
def parseArrayInit (self : Self) (elemSize idx : BitVec 32) (s : Compiler) : Option Compiler :=
  if s.tok ≠ .rbracket ∧ s.tok ≠ .eof ∧ s.hadError = false then do
    let off := s.localOffset + idx * elemSize
    let s ← self .expr s
    self (.arrayInit elemSize (idx + 1)) ((s.asm (storeLocal off REG_EAX)).skip .comma)
  else some (s.expect .rbracket)

/-- An array variable behind its type. -/
def letArray (self : Self) (name : List UInt8) (type : SymType) (s : Compiler) :
    Option Compiler :=
  let elemSize : BitVec 32 := if type = .char then 1 else 4
  let total := (s.arrayCount * elemSize + 3) &&& ~~~3
  let s := takeSlot total s
  let s := s.sym (Symbols.add name .loc type true s.localOffset 0)
  if s.tok = .assign then
    let s := s.next
    if s.tok = .lbracket then self (.arrayInit elemSize 0) s.next
    else some (s.rcError "expected '[' for array initializer")
  else some s

/-- A structure variable behind its type. -/
def letStruct (name sname : List UInt8) (type : SymType) (s : Compiler) : Compiler :=
  let size := ((s.syms.structDefLookup sname).map StructDef.size).getD 4
  let s := takeSlot size s
  (s.sym (Symbols.add name .loc type false s.localOffset 0)).setSymStruct name sname

/-- A variable of one word behind its type. -/
def letWord (self : Self) (name sname : List UInt8) (type : SymType) (isPtr : Bool)
    (s : Compiler) : Option Compiler :=
  let s := takeSlot 4 s
  let s := s.sym (Symbols.add name .loc type isPtr s.localOffset 0)
  let s := if sname ≠ [] then s.setSymStruct name sname else s
  if s.tok = .assign then
    (self .expr s.next).map (fun s => s.asm (storeLocal s.localOffset REG_EAX))
  else some s

/-- A let statement; the token is `let`. -/
def parseLet (self : Self) (s : Compiler) : Option Compiler :=
  let s := s.next.skip .mut
  match s.tok with
  | .ident id => do
      let name := cut id
      let r ← parseType (s.next.expect .colon)
      let s := r.2
      match r.1 with
      | none => some (s.rcError "expected type")
      | some (type, isPtr) =>
        let sname := cut s.parsedStructName
        let t :=
          if s.isArray then letArray self name type s
          else if sname ≠ [] ∧ isPtr = false then some (letStruct name sname type s)
          else letWord self name sname type isPtr s
        t.map (fun s => s.expect .semi)
  | _ => some (s.rcError "expected variable name")

/-- An if statement; the token is `if`. -/
def parseIf (self : Self) (s : Compiler) : Option Compiler := do
  let s ← self .expr s.next
  let falseJump := (s.asm (cmpEaxImm 0)).hole (jccPlaceholder CC_E)
  let s ← self .block falseJump.1
  if s.tok = .else_ then
    let endJump := s.next.hole jmpPlaceholder
    let s := endJump.1.asm (patchHere falseJump.2)
    let s ← if s.tok = .if_ then self .ifStmt s else self .block s
    some (s.asm (patchHere endJump.2))
  else some (s.asm (patchHere falseJump.2))

def parseStmt (self : Self) (s : Compiler) : Option Compiler :=
  if s.hadError then some s
  else
    match s.tok with
    | .lbrace => self .block s
    | .return_ => do
        let s := s.next
        let s ← if s.tok = .semi then some s else self .expr s
        some ((s.asm epilogue).expect .semi)
    | .if_ => self .ifStmt s
    | .while_ => parseWhile self s
    | .loop => parseLoop self s
    | .for_ => parseFor self s
    | .match_ => parseMatch self s
    | .let_ => parseLet self s
    | .unsafeKw => self .block s.next
    | .break_ =>
      let r := s.next.hole jmpPlaceholder
      some ((r.1.loopAddBreak r.2).expect .semi)
    | .continue_ =>
      let s := s.next
      let s :=
        match s.loops with
        | ctx :: _ => s.asm (jmpTo ctx.continueTarget)
        | [] => s.rcError "continue outside loop"
      some (s.expect .semi)
    | .enum => parseEnum s
    | .semi => some s.next
    | _ => (self .expr s).map (fun s => s.expect .semi)

def parseBlock (self : Self) (s : Compiler) : Option Compiler :=
  if s.hadError then some s
  else do
    let s ← self .stmts ((s.expect .lbrace).sym Symbols.enterScope)
    some ((s.sym Symbols.leaveScope).expect .rbrace)

/-- The statements of a block. -/
def parseStmts (self : Self) (s : Compiler) : Option Compiler :=
  if s.tok ≠ .rbrace ∧ s.tok ≠ .eof ∧ s.hadError = false then
    (self .stmt s).bind (self .stmts)
  else some s

/-- What a call does. -/
def body (self : Self) : Call → Compiler → Option Compiler
  | .expr => parseExpr self
  | .binops => parseBinops self
  | .or => parseOr self
  | .orLoop => parseOrLoop self
  | .andExpr => parseAndExpr self
  | .andLoop => parseAndLoop self
  | .bitor => parseBitor self
  | .bitorLoop => parseBitorLoop self
  | .bitxor => parseBitxor self
  | .bitxorLoop => parseBitxorLoop self
  | .bitand => parseBitand self
  | .bitandLoop => parseBitandLoop self
  | .equal => parseEqual self
  | .equalLoop => parseEqualLoop self
  | .relational => parseRelational self
  | .relationalLoop => parseRelationalLoop self
  | .shift => parseShift self
  | .shiftLoop => parseShiftLoop self
  | .addExpr => parseAddExpr self
  | .addLoop => parseAddLoop self
  | .mul => parseMul self
  | .mulLoop => parseMulLoop self
  | .unary => parseUnary self
  | .postfx => parsePostfix self
  | .postfxLoop => parsePostfixLoop self
  | .primary => parsePrimary self
  | .moreArgs name sym argc => moreArgs self name sym argc
  | .stmt => parseStmt self
  | .block => parseBlock self
  | .stmts => parseStmts self
  | .ifStmt => parseIf self
  | .arms old matchLocal breaks nextArm => parseArms self old matchLocal breaks nextArm
  | .arrayInit elemSize idx => parseArrayInit self elemSize idx

/-- Interpret a call with `n` units of fuel. -/
def parse : Nat → Self
  | 0, _, _ => none
  | n + 1, c, s => body (parse n) c s

/-! ### Declarations -/

/-- The parameters of a function: words above the return address. -/
def paramLoop : Nat → Nat → Compiler → Option Compiler
  | 0, _, _ => none
  | n + 1, count, s =>
    if s.tok = .rparen ∨ s.tok = .eof ∨ s.hadError then some s
    else
      match s.tok with
      | .ident id => do
          let name := cut id
          let r ← parseType (s.next.expect .colon)
          let s := r.2
          match r.1 with
          | none => some (s.rcError "expected parameter type")
          | some (type, isPtr) =>
            let offset := BitVec.ofNat 32 (8 + count * 4)
            let s := s.sym (Symbols.add name .param type isPtr offset 0)
            let s :=
              if s.parsedStructName ≠ [] then s.setSymStruct name s.parsedStructName else s
            paramLoop n (count + 1) (s.skip .comma)
      | _ => some (s.rcError "expected parameter name")

/-- The return type behind `->`; without one the function returns nothing. -/
def parseReturnType (s : Compiler) : Option ((SymType × Bool) × Compiler) :=
  if s.tok = .arrow then do
    let r ← parseType s.next
    some (r.1.getD (.void, false), r.2)
  else some ((.void, false), s)

/-- The bytes of the frame: what the locals take, rounded up to 16. -/
def frameSize (localOffset : BitVec 32) : BitVec 32 := (-localOffset + 15) &&& ~~~15

/-- The head of a function definition up to its body; the token is the name. -/
def functionHead (id : List UInt8) (s : Compiler) : Option Compiler := do
  let name := cut id
  let s := s.next
  let s := s.sym (Symbols.add name .func .void false (BitVec.ofNat 32 s.pos) 0)
  let s := (s.expect .lparen).sym Symbols.enterScope
  let s ← paramLoop s.turns 0 s
  let r ← parseReturnType (s.expect .rparen)
  some (r.2.sym (Symbols.modify name (fun f => { f with type := r.1.1, isPtr := r.1.2 })))

/-- A function definition; the token is `fn`. The size of the frame is
    patched into the prologue behind the body. -/
def parseFunction (self : Self) (s : Compiler) : Option Compiler :=
  let s := s.next
  match s.tok with
  | .ident id => do
      let s ← functionHead id s
      let s := s.asm (bytes [0x55, 0x89, 0xE5, 0x81, 0xEC])
      let prologuePatch := s.pos
      let s := { s.asm (dword 0) with localOffset := 0 }
      let s ← self .block s
      let s := s.asm (fun e => epilogue (movRegImm REG_EAX 0 e))
      let s := s.asm (patchDword prologuePatch (frameSize s.localOffset))
      some (s.sym Symbols.leaveScope)
  | _ => some (s.rcError "expected function name")

/-- Static variables start behind the code. -/
def globalDataBase (s : Compiler) : BitVec 32 := s.emit.base + BitVec.ofNat 32 CC_CODE_MAX

/-- A number with an optional sign. -/
def signedNumber (s : Compiler) : Option (BitVec 32) × Compiler :=
  let neg := decide (s.tok = .minus)
  let s := s.skip .minus
  match s.tok with
  | .num v => (some (if neg then -v else v), s)
  | _ => (none, s)

/-- Note the initial value of a static variable, unless the table is full. -/
def addGlobalInit (addr value : BitVec 32) (s : Compiler) : Compiler :=
  if s.globalInits.length < MAX_GLOBAL_INITS then
    { s with globalInits := s.globalInits ++ [{ addr := addr, value := value }] }
  else s

/-- The initial value of the static variable at `addr`, if there is one. -/
def staticInit (addr : BitVec 32) (s : Compiler) : Compiler :=
  if s.tok = .assign then
    let r := signedNumber s.next
    match r.1 with
    | some v => addGlobalInit addr v r.2.next
    | none => r.2.rcError "expected constant initializer"
  else s

/-- A static variable behind its type. -/
def staticVar (name : List UInt8) (type : SymType) (isPtr : Bool) (s : Compiler) : Compiler :=
  let addr := globalDataBase s + s.globalOffset
  let s := { s with globalOffset := s.globalOffset + 4 }
  let s := s.sym (Symbols.add name .glob type isPtr 0 addr)
  let s := if s.parsedStructName ≠ [] then s.setSymStruct name s.parsedStructName else s
  (staticInit addr s).expect .semi

/-- A static variable; the token is `static`. -/
def parseGlobalStatic (s : Compiler) : Option Compiler :=
  let s := s.next.skip .mut
  match s.tok with
  | .ident id => do
      let r ← parseType (s.next.expect .colon)
      match r.1 with
      | none => some (r.2.rcError "expected type")
      | some (type, isPtr) => some (staticVar (cut id) type isPtr r.2)
  | _ => some (s.rcError "expected variable name")

/-- A constant; the token is `const`. -/
def parseGlobalConst (s : Compiler) : Option Compiler :=
  let s := s.next
  match s.tok with
  | .ident id => do
      let name := cut id
      let r ← parseType (s.next.expect .colon)
      match r.1 with
      | none => some (r.2.rcError "expected type")
      | some (type, isPtr) =>
        let v := signedNumber (r.2.expect .assign)
        match v.1 with
        | none => some (v.2.rcError "expected constant value")
        | some val =>
          some ((v.2.next.sym (Symbols.add name .const type isPtr 0 val)).expect .semi)
  | _ => some (s.rcError "expected constant name")

/-- Note a type alias, unless the table is full. -/
def addTypedef (name : List UInt8) (type : SymType) (isPtr : Bool) (s : Compiler) : Compiler :=
  if s.typedefs.length < MAX_TYPEDEFS then
    { s with typedefs := s.typedefs ++ [{ name := cut name, type := type, isPtr := isPtr }] }
  else s

/-- A type alias; the token is `type`. -/
def parseTypeAlias (s : Compiler) : Option Compiler :=
  let s := s.next
  match s.tok with
  | .ident id => do
      let r ← parseType (s.next.expect .assign)
      match r.1 with
      | none => some (r.2.rcError "expected type")
      | some (type, isPtr) => some ((addTypedef (cut id) type isPtr r.2).expect .semi)
  | _ => some (s.rcError "expected type alias name")

/-- Change the structure type defined last. -/
def modifyLastStruct (f : StructDef → StructDef) (t : Symbols) : Symbols :=
  { t with structs := t.structs.modify (t.structs.length - 1) f }

/-- The fields of a structure, one word each. -/
def fieldLoop : Nat → Nat → Compiler → Option (Compiler × Nat)
  | 0, _, _ => none
  | n + 1, count, s =>
    if s.tok = .rbrace ∨ s.tok = .eof ∨ s.hadError then some (s, count)
    else
      match s.tok with
      | .ident id => do
          let r ← parseType (s.next.expect .colon)
          let s := r.2
          match r.1 with
          | none => some (s.rcError "expected field type", count)
          | some (type, isPtr) =>
            if count ≥ MAX_STRUCT_FIELDS then
              some (s.rcError "too many struct fields", count)
            else
              let field : StructField :=
                { name := cut id
                  type := type
                  isPtr := isPtr
                  offset := BitVec.ofNat 32 (count * 4) }
              let s := s.sym (modifyLastStruct (fun d =>
                { d with fields := d.fields ++ [field] }))
              fieldLoop n (count + 1) (s.skip .comma)
      | _ => some (s.rcError "expected field name", count)

/-- A structure type; the token is `struct`. A full table is not an error
    of its own. -/
def parseStructDef (s : Compiler) : Option Compiler :=
  let s := s.next
  match s.tok with
  | .ident id =>
    let s := s.next
    match s.syms.structDefAdd (cut id) with
    | none => some s
    | some syms => do
        let s := { s with syms := syms }.expect .lbrace
        let r ← fieldLoop s.turns 0 s
        let size := BitVec.ofNat 32 (r.2 * 4)
        some ((r.1.sym (modifyLastStruct (fun d => { d with size := size }))).expect .rbrace)
  | _ => some (s.rcError "expected struct name")

/-- The declarations of a program. -/
def parseDecls (self : Self) : Nat → Compiler → Option Compiler
  | 0, _ => none
  | n + 1, s =>
    if s.tok = .eof ∨ s.hadError then some s
    else
      match s.tok with
      | .fn => (parseFunction self s).bind (parseDecls self n)
      | .struct => (parseStructDef s).bind (parseDecls self n)
      | .enum => (parseEnum s).bind (parseDecls self n)
      | .static => (parseGlobalStatic s).bind (parseDecls self n)
      | .const => (parseGlobalConst s).bind (parseDecls self n)
      | .type => (parseTypeAlias s).bind (parseDecls self n)
      | .unsafeKw => parseDecls self n s.next
      | _ =>
        some (s.rcError
          "expected fn, struct, enum, static, const, or type at top level")

/-! ### Programs -/

/-- Resolve the calls to functions that were defined later. `none` is a name
    that never was. -/
def resolveFixups : List Fixup → Compiler → Option Compiler
  | [], s => some s
  | f :: fs, s =>
    match s.syms.lookup f.name with
    | none => none
    | some v =>
      resolveFixups fs (s.asm (patchDword f.patchPos
        (v.offset - BitVec.ofNat 32 (f.patchPos + 4))))

/-- Append a string and put its address where it is used. -/
def placeString (s : Compiler) (t : StringEntry) : Compiler :=
  let addr := s.emit.base + BitVec.ofNat 32 s.pos
  s.asm (fun e => patchDword t.patchPos addr (byte 0 (bytes t.text e)))

/-- Store the initial value of a static variable. -/
def emitGlobalInit (s : Compiler) (g : GlobalInit) : Compiler :=
  s.asm (fun e => storeGlobal g.addr REG_EAX (movRegImm REG_EAX g.value e))

/-- The code a program starts with: it initialises the static variables and
    calls `main`. -/
def emitInit (entryPatch : Nat) (s : Compiler) : Option Compiler :=
  let initPos := s.pos
  let s := s.globalInits.foldl emitGlobalInit s
  match s.syms.lookup (ascii "main") with
  | none => none
  | some v =>
    let s := s.asm (byte 0xE8)
    let callPatch := s.pos
    let s := s.asm (fun e => ret (dword 0 e))
    let s := s.asm (patchDword callPatch (v.offset - BitVec.ofNat 32 (callPatch + 4)))
    some (s.asm (patchDword entryPatch (disp (entryPatch + 4) initPos)))

/-- Behind the declarations: `none` is a program that is rejected. -/
def finish (entryPatch : Nat) (s : Compiler) : Option Compiler :=
  if s.hadError ∨ s.lex.error then none
  else do
    let s ← resolveFixups s.fixups s
    let s := s.strings.foldl placeString s
    emitInit entryPatch s

/-- What a compilation starts with. The rest is left from the one before. -/
def reset (s : Compiler) : Compiler :=
  { s with
    typedefs := [{ name := ascii "uint8", type := .char, isPtr := false }]
    errors := []
    fixups := []
    globalInits := []
    strings := []
    loops := []
    localOffset := 0
    globalOffset := 0 }

/-- A whole program. The outer `none` is a compiler that has run out of fuel,
    the inner one a program that is rejected. -/
def parseProgram (fuel : Nat) (s : Compiler) : Option (Option Compiler) :=
  let s := (reset s).asm (byte 0xE9)
  let entryPatch := s.pos
  let s := s.asm (dword 0)
  (parseDecls (parse fuel) s.turns s).map (finish entryPatch)

/-- The state of the compiler when the kernel starts. -/
def boot : Compiler where
  emit := Emitter.init CC_LOAD_BASE
  lex := Lexer.init []
  syms := { symbols := [], scope := 0, structs := [] }
  typedefs := []
  errors := []
  ptrScale := 0
  fixups := []
  globalInits := []
  strings := []
  loops := []
  localOffset := 0
  exprStruct := { name := [], isPtr := false, kind := .loc, offset := 0, addr := 0 }
  isArray := false
  arrayCount := 0
  parsedStructName := []
  globalOffset := 0

/-- Start on a text: an empty buffer, the kernel's symbols and the first
    token. -/
def start (builtins : List (List UInt8 × BitVec 32)) (source : List UInt8) (s : Compiler) :
    Compiler :=
  { s with
    emit := Emitter.init s.emit.base
    syms := Symbols.init builtins
    lex := (Lexer.init source).next }

/-- Compile a text: the state with its code, unless it is rejected or does
    not fit. Reading the text and writing the code is up to the caller. -/
def rcCompile (fuel : Nat) (builtins : List (List UInt8 × BitVec 32)) (source : List UInt8)
    (s : Compiler) : Option (Option Compiler) :=
  (parseProgram fuel (start builtins source s)).map (fun r =>
    r.bind (fun s => if s.emit.overflow then none else some s))

end SysRust.Rc
