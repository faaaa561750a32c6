import Mathlib.Algebra.Group.Nat.Defs
import Mathlib.Data.List.Basic

/-!
# The Lexer of the Compiler

`rc/lex.rs` breaks the source text of a program into tokens. The text is
read once, from front to back, and only the token under the cursor is kept:
`next` replaces it by the one that follows.

The source keeps the text behind a pointer with a position. Here the cursor
holds the bytes that are left, so `POS >= SRC_LEN` is the empty list. A
number is an `i32`, which wraps around; the text of a word or a string is
what fits in `str_val`, 127 bytes.

The loop over white space and comments is bounded by the number of bytes
left, since each turn consumes one.

## Main definitions

* `Tok`: The tokens.
* `Cursor`: The text that is left, and the line it starts on.
* `skipWs`: White space and comments.
* `KEYWORDS`, `lexWord`, `lexNumber`, `lexChar`, `lexString`, `lexOp`: One
  kind of token each.
* `Lexer`, `next`, `expect`: The lexer and its operations.
-/

namespace SysRust.Rc

/-- The tokens. -/
inductive Tok where
  | eof
  | num (v : BitVec 32)
  | str (text : List UInt8)
  | ident (name : List UInt8)
  | i32
  | u8
  | void
  | if_
  | else_
  | while_
  | for_
  | loop
  | return_
  | break_
  | continue_
  | struct
  | enum
  | match_
  | underscorePat
  | static
  | const
  | type
  | u32
  | usize
  | bool
  | isize
  | plus
  | minus
  | star
  | slash
  | percent
  | amp
  | pipe
  | caret
  | bang
  | assign
  | lt
  | gt
  | eq
  | neq
  | lte
  | gte
  | and
  | or
  | lshift
  | rshift
  | plusEq
  | minusEq
  | starEq
  | slashEq
  | lparen
  | rparen
  | lbrace
  | rbrace
  | lbracket
  | rbracket
  | semi
  | comma
  | colon
  | dot
  | arrow
  | fn
  | let_
  | mut
  | true_
  | false_
  | as
  | fatArrow
  | doubleDot
  | in_
  | unsafeKw
deriving DecidableEq

/-- The bytes of an ASCII text. -/
def ascii (s : String) : List UInt8 := s.toList.map (fun c => UInt8.ofNat c.toNat)

def isdigit (c : UInt8) : Bool := 0x30 ≤ c && c ≤ 0x39

def isalpha (c : UInt8) : Bool := (0x61 ≤ c && c ≤ 0x7A) || (0x41 ≤ c && c ≤ 0x5A)

def isalnum (c : UInt8) : Bool := isalpha c || isdigit c

def isspace (c : UInt8) : Bool :=
  c == 0x20 || c == 0x09 || c == 0x0A || c == 0x0D || c == 0x0C || c == 0x0B

/-- The bytes of a word after the first. -/
def isword (c : UInt8) : Bool := isalnum c || c == 0x5F

/-- The text that is left and the current line. -/
structure Cursor where
  src : List UInt8
  line : Nat
deriving DecidableEq

namespace Cursor

/-- The current byte; zero at the end. -/
def peekChar (c : Cursor) : UInt8 := c.src.headD 0

/-- Behind the current byte. -/
def advance (c : Cursor) : Cursor :=
  match c.src with
  | [] => c
  | b :: rest => { src := rest, line := if b = 0x0A then c.line + 1 else c.line }

/-- Skip the rest of a block comment. -/
def skipBlock : Nat → Cursor → Cursor
  | 0, c => c
  | n + 1, c =>
    match c.src with
    | [] => c
    | 0x2A :: 0x2F :: _ => c.advance.advance
    | _ => skipBlock n c.advance

/-- Skip the rest of a line comment. -/
def skipLine : Nat → Cursor → Cursor
  | 0, c => c
  | n + 1, c =>
    match c.src with
    | [] => c
    | b :: _ => if b = 0x0A then c else skipLine n c.advance

/-- The loop of `skip_ws`: white space, block comments and line comments. -/
def skipLoop : Nat → Cursor → Cursor
  | 0, c => c
  | n + 1, c =>
    match c.src with
    | 0x2F :: 0x2A :: _ => skipLoop n (skipBlock c.src.length c.advance.advance)
    | 0x2F :: 0x2F :: _ => skipLoop n (skipLine c.src.length c.advance.advance)
    | b :: _ => if isspace b then skipLoop n c.advance else c
    | [] => c

def skipWs (c : Cursor) : Cursor := skipLoop c.src.length c

end Cursor

/-- The keyword table. -/
def KEYWORDS : List (List UInt8 × Tok) :=
  [(ascii "fn", .fn), (ascii "let", .let_), (ascii "mut", .mut), (ascii "if", .if_),
    (ascii "else", .else_), (ascii "while", .while_), (ascii "for", .for_),
    (ascii "loop", .loop), (ascii "return", .return_), (ascii "break", .break_),
    (ascii "continue", .continue_), (ascii "struct", .struct), (ascii "enum", .enum),
    (ascii "match", .match_), (ascii "static", .static), (ascii "const", .const),
    (ascii "type", .type), (ascii "unsafe", .unsafeKw), (ascii "in", .in_), (ascii "as", .as),
    (ascii "i32", .i32), (ascii "u8", .u8), (ascii "u32", .u32), (ascii "bool", .bool),
    (ascii "usize", .usize), (ascii "isize", .isize), (ascii "true", .true_),
    (ascii "false", .false_), (ascii "void", .void), (ascii "_", .underscorePat)]

/-- A keyword or an identifier. -/
def wordTok (w : List UInt8) : Tok :=
  match KEYWORDS.find? (fun k => k.1 == w) with
  | some k => k.2
  | none => .ident w

/-- The characters behind a backslash that stand for another one, in a
    literal between `quote` marks. -/
def unescape (quote c : UInt8) : UInt8 :=
  if c = 0x6E then 0x0A
  else if c = 0x74 then 0x09
  else if c = 0x5C then 0x5C
  else if c = quote then quote
  else if c = 0x30 then 0
  else c

/-- A word: at most 127 of its bytes are kept. -/
def lexWord (c : Cursor) : Tok × Cursor :=
  (wordTok ((c.src.takeWhile isword).take 127), { c with src := c.src.dropWhile isword })

/-- The value of a hexadecimal digit. -/
def hexDigit (h : UInt8) : Option Nat :=
  if 0x30 ≤ h ∧ h ≤ 0x39 then some (h.toNat - 0x30)
  else if 0x61 ≤ h ∧ h ≤ 0x66 then some (h.toNat - 0x61 + 10)
  else if 0x41 ≤ h ∧ h ≤ 0x46 then some (h.toNat - 0x41 + 10)
  else none

def lexHex : List UInt8 → BitVec 32 → BitVec 32 × List UInt8
  | [], val => (val, [])
  | h :: rest, val =>
    match hexDigit h with
    | some d => lexHex rest (val * 16 + BitVec.ofNat 32 d)
    | none => (val, h :: rest)

def lexDecimal : List UInt8 → BitVec 32 → BitVec 32 × List UInt8
  | [], val => (val, [])
  | d :: rest, val =>
    if isdigit d then lexDecimal rest (val * 10 + BitVec.ofNat 32 (d.toNat - 0x30))
    else (val, d :: rest)

/-- A decimal or hexadecimal number. -/
def lexNumber (c : Cursor) : Tok × Cursor :=
  let r :=
    match c.src with
    | 0x30 :: 0x78 :: rest => lexHex rest 0
    | 0x30 :: 0x58 :: rest => lexHex rest 0
    | src => lexDecimal src 0
  (.num r.1, { c with src := r.2 })

/-- A character literal is a number; its closing quote may be missing. -/
def lexChar (c : Cursor) : Tok × Cursor :=
  let c := c.advance
  let ch := c.peekChar
  let c := c.advance
  let r :=
    if ch = 0x5C then (unescape 0x27 c.peekChar, c.advance)
    else (ch, c)
  (.num (BitVec.ofNat 32 r.1.toNat), if r.2.peekChar = 0x27 then r.2.advance else r.2)

/-- The text of a string up to its closing quote or the end. -/
def lexStringBody : Nat → Cursor → List UInt8 × Cursor
  | 0, c => ([], c)
  | n + 1, c =>
    match c.src with
    | [] => ([], c)
    | b :: _ =>
      if b = 0x22 then ([], c)
      else if b = 0x5C then
        let r := lexStringBody n c.advance.advance
        (unescape 0x22 c.advance.peekChar :: r.1, r.2)
      else
        let r := lexStringBody n c.advance
        (b :: r.1, r.2)

/-- A string literal: at most 127 of its bytes are kept. -/
def lexString (c : Cursor) : Tok × Cursor :=
  let r := lexStringBody c.src.length c.advance
  (.str (r.1.take 127), if r.2.peekChar = 0x22 then r.2.advance else r.2)

/-- One of two or three tokens by the byte that follows. -/
def lexNext (c : Cursor) (longer : List (UInt8 × Tok)) (short : Tok) : Tok × Cursor :=
  match longer.find? (fun p => p.1 == c.peekChar) with
  | some p => (p.2, c.advance)
  | none => (short, c)

/-- An operator or a punctuation mark, whose first byte has been consumed.
    `none` is a byte that starts no token. -/
def lexOp (b : UInt8) (c : Cursor) : Option (Tok × Cursor) :=
  match b.toNat with
  | 0x2B => some (lexNext c [(0x3D, .plusEq)] .plus)
  | 0x2D => some (lexNext c [(0x3E, .arrow), (0x3D, .minusEq)] .minus)
  | 0x2A => some (lexNext c [(0x3D, .starEq)] .star)
  | 0x2F => some (lexNext c [(0x3D, .slashEq)] .slash)
  | 0x25 => some (.percent, c)
  | 0x26 => some (lexNext c [(0x26, .and)] .amp)
  | 0x7C => some (lexNext c [(0x7C, .or)] .pipe)
  | 0x5E => some (.caret, c)
  | 0x21 => some (lexNext c [(0x3D, .neq)] .bang)
  | 0x3D => some (lexNext c [(0x3E, .fatArrow), (0x3D, .eq)] .assign)
  | 0x3C => some (lexNext c [(0x3D, .lte), (0x3C, .lshift)] .lt)
  | 0x3E => some (lexNext c [(0x3D, .gte), (0x3E, .rshift)] .gt)
  | 0x28 => some (.lparen, c)
  | 0x29 => some (.rparen, c)
  | 0x7B => some (.lbrace, c)
  | 0x7D => some (.rbrace, c)
  | 0x5B => some (.lbracket, c)
  | 0x5D => some (.rbracket, c)
  | 0x3B => some (.semi, c)
  | 0x2C => some (.comma, c)
  | 0x3A => some (.colon, c)
  | 0x2E => some (lexNext c [(0x2E, .doubleDot)] .dot)
  | _ => none

/-- The lexer: the text left, the current token and the line it starts on,
    and whether an error has been reported. -/
structure Lexer where
  cur : Cursor
  tok : Tok
  tokLine : Nat
  error : Bool
deriving DecidableEq

namespace Lexer

/-- Start on a text; there is no token yet. -/
def init (source : List UInt8) : Lexer where
  cur := { src := source, line := 1 }
  tok := .eof
  tokLine := 0
  error := false

/-- Advance to the next token. A byte that starts no token is an error, and
    reads as the end of the text. -/
def next (l : Lexer) : Lexer :=
  let c := l.cur.skipWs
  let l := { l with cur := c, tokLine := c.line }
  let take (r : Tok × Cursor) : Lexer := { l with tok := r.1, cur := r.2 }
  match c.src with
  | [] => { l with tok := .eof }
  | b :: _ =>
    if b = 0x27 then take (lexChar c)
    else if isdigit b then take (lexNumber c)
    else if isalpha b || b == 0x5F then take (lexWord c)
    else if b = 0x22 then take (lexString c)
    else
      match lexOp b c.advance with
      | some r => take r
      | none => { l with tok := .eof, cur := c.advance, error := true }

/-- Consume a token, which should be `t`. -/
def expect (t : Tok) (l : Lexer) : Lexer :=
  next (if l.tok = t then l else { l with error := true })

end Lexer

end SysRust.Rc
