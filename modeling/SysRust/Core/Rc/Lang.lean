import SysRust.Core.Rc.Lex

/-!
# Expressions and Their Meaning

What the expressions of a program mean, said without the compiler. The
grammar is the one of C: eleven levels of precedence, binary operators
grouped to the left. Values are 32-bit words, and arithmetic wraps around.
Comparisons are of signed numbers and give 0 or 1; `!` inverts every bit; a
shift uses its count modulo 32, and `>>` shifts zeros in, as on an unsigned
number; `&&` and `||` look at their right operand only if the left one leaves
the result open.

An evaluation fails on an unknown variable, on a division by zero and on a
quotient that does not fit.

## Main definitions

* `BinOp`, `Expr`: Binary operators and expressions.
* `BinOp.run`, `eval`: Their values.
* `Derives`: The tokens of an expression, level by level.
-/

namespace SysRust.Rc

inductive BinOp where
  | mul
  | div
  | rem
  | add
  | sub
  | shl
  | shr
  | lt
  | gt
  | le
  | ge
  | eq
  | ne
  | band
  | bxor
  | bor
  | land
  | lor
deriving DecidableEq

inductive Expr where
  | lit (v : BitVec 32)
  | var (name : List UInt8)
  | neg (e : Expr)
  | not (e : Expr)
  | bin (op : BinOp) (a b : Expr)
deriving DecidableEq

/-- The word of a truth value. -/
def ofBool (b : Bool) : BitVec 32 := if b then 1 else 0

namespace BinOp

/-- The division of `x` by `y` raises an exception. -/
def Faults (x y : BitVec 32) : Prop := y = 0 ∨ (x = BitVec.intMin 32 ∧ y = BitVec.allOnes 32)

instance (x y : BitVec 32) : Decidable (Faults x y) :=
  inferInstanceAs (Decidable (_ ∨ (_ ∧ _)))

/-- The value for a left operand `x` and a right operand that evaluates to
    `r`, if it is evaluated at all. -/
def run (x : BitVec 32) (r : Option (BitVec 32)) : BinOp → Option (BitVec 32)
  | .mul => r.map (fun y => x * y)
  | .div =>
    r.bind (fun y => if Faults x y then none else some (BitVec.ofInt 32 (x.toInt.tdiv y.toInt)))
  | .rem =>
    r.bind (fun y => if Faults x y then none else some (BitVec.ofInt 32 (x.toInt.tmod y.toInt)))
  | .add => r.map (fun y => x + y)
  | .sub => r.map (fun y => x - y)
  | .shl => r.map (fun y => x <<< (y.toNat % 32))
  | .shr => r.map (fun y => x >>> (y.toNat % 32))
  | .lt => r.map (fun y => ofBool (x.toInt < y.toInt))
  | .gt => r.map (fun y => ofBool (y.toInt < x.toInt))
  | .le => r.map (fun y => ofBool (x.toInt ≤ y.toInt))
  | .ge => r.map (fun y => ofBool (y.toInt ≤ x.toInt))
  | .eq => r.map (fun y => ofBool (x = y))
  | .ne => r.map (fun y => ofBool (x ≠ y))
  | .band => r.map (fun y => x &&& y)
  | .bxor => r.map (fun y => x ^^^ y)
  | .bor => r.map (fun y => x ||| y)
  | .land => if x = 0 then some 0 else r.map (fun y => ofBool (y ≠ 0))
  | .lor => if x = 0 then r.map (fun y => ofBool (y ≠ 0)) else some 1

/-- The token of an operator. -/
def tok : BinOp → Tok
  | .mul => .star
  | .div => .slash
  | .rem => .percent
  | .add => .plus
  | .sub => .minus
  | .shl => .lshift
  | .shr => .rshift
  | .lt => .lt
  | .gt => .gt
  | .le => .lte
  | .ge => .gte
  | .eq => .eq
  | .ne => .neq
  | .band => .amp
  | .bxor => .caret
  | .bor => .pipe
  | .land => .and
  | .lor => .or

/-- The precedence of an operator: 0 binds least. -/
def level : BinOp → Nat
  | .mul => 9
  | .div => 9
  | .rem => 9
  | .add => 8
  | .sub => 8
  | .shl => 7
  | .shr => 7
  | .lt => 6
  | .gt => 6
  | .le => 6
  | .ge => 6
  | .eq => 5
  | .ne => 5
  | .band => 4
  | .bxor => 3
  | .bor => 2
  | .land => 1
  | .lor => 0

end BinOp

namespace Expr

/-- The value of an expression. -/
def eval (env : List UInt8 → Option (BitVec 32)) : Expr → Option (BitVec 32)
  | .lit v => some v
  | .var name => env name
  | .neg e => (e.eval env).map (fun x => -x)
  | .not e => (e.eval env).map (fun x => ~~~x)
  | .bin op a b => (a.eval env).bind (fun x => op.run x (b.eval env))

/-- The variables of an expression. -/
def vars : Expr → List (List UInt8)
  | .lit _ => []
  | .var name => [name]
  | .neg e => e.vars
  | .not e => e.vars
  | .bin _ a b => a.vars ++ b.vars

/-- The number of binary operators. -/
def ops : Expr → Nat
  | .lit _ => 0
  | .var _ => 0
  | .neg e => e.ops
  | .not e => e.ops
  | .bin _ a b => a.ops + b.ops + 1

end Expr

/-- The operands of the binary operators that bind most. -/
def UNARY : Nat := 10

/-- `Derives l ts e`: the tokens `ts` are the expression `e`, whose operators
    outside of parentheses have at least level `l`. A binary operator takes
    what is on its level to its left and what is above it to its right. -/
inductive Derives : Nat → List Tok → Expr → Prop where
  | num (v : BitVec 32) : Derives UNARY [.num v] (.lit v)
  | true_ : Derives UNARY [.true_] (.lit 1)
  | false_ : Derives UNARY [.false_] (.lit 0)
  | ident (name : List UInt8) : Derives UNARY [.ident name] (.var name)
  | paren {ts : List Tok} {e : Expr} (h : Derives 0 ts e) :
      Derives UNARY (.lparen :: ts ++ [.rparen]) e
  | minus {ts : List Tok} {e : Expr} (h : Derives UNARY ts e) :
      Derives UNARY (.minus :: ts) (.neg e)
  | bang {ts : List Tok} {e : Expr} (h : Derives UNARY ts e) :
      Derives UNARY (.bang :: ts) (.not e)
  | up {l : Nat} {ts : List Tok} {e : Expr} (h : Derives (l + 1) ts e) : Derives l ts e
  | bin (op : BinOp) {ts us : List Tok} {a b : Expr} (ha : Derives op.level ts a)
      (hb : Derives (op.level + 1) us b) :
      Derives op.level (ts ++ op.tok :: us) (.bin op a b)

end SysRust.Rc
