import Mathlib.Data.List.Basic

/-!
# The Symbol Table

`rc/sym.rs` keeps the symbols of a program in one array with a scope depth.
Entering a scope raises the depth; leaving one removes the symbols at the
end of the array that have the current depth. A lookup goes from the newest
symbol to the oldest.

The symbols are a list with the newest first. Names are the bytes up to the
terminating zero; the table keeps 31 of them, while a lookup compares all of
the name it is given.

`init` enters the kernel's functions under the names compiled programs call
them by. Their addresses are those of the running kernel, so they are a
parameter here.

## Main definitions

* `SymKind`, `SymType`, `Symbol`: A symbol.
* `StructField`, `StructDef`: A structure type.
* `Symbols`: The tables.
* `add`, `lookup`, `enterScope`, `leaveScope`: Their operations.
* `structDefAdd`, `structDefLookup`, `structFieldLookup`: Structure types.
-/

namespace SysRust.Rc

inductive SymKind where
  | loc
  | glob
  | func
  | kernFunc
  | param
  | const
deriving DecidableEq

inductive SymType where
  | int
  | char
  | void
  | ptr
deriving DecidableEq

def MAX_SYMBOLS : Nat := 256

/-- What a name field of 32 bytes keeps of a name. -/
def cut (name : List UInt8) : List UInt8 := name.take 31

structure Symbol where
  name : List UInt8
  kind : SymKind
  type : SymType
  isPtr : Bool
  offset : BitVec 32
  addr : BitVec 32
  scopeDepth : Nat
  structName : List UInt8
deriving DecidableEq

def MAX_STRUCT_FIELDS : Nat := 16
def MAX_STRUCT_DEFS : Nat := 16

structure StructField where
  name : List UInt8
  type : SymType
  isPtr : Bool
  offset : BitVec 32
deriving DecidableEq

structure StructDef where
  name : List UInt8
  fields : List StructField
  size : BitVec 32
deriving DecidableEq

/-- The symbols, newest first, the current scope depth and the structure
    types in the order they were defined. -/
structure Symbols where
  symbols : List Symbol
  scope : Nat
  structs : List StructDef
deriving DecidableEq

namespace Symbols

/-- Add a symbol. A full table stays as it is. -/
def add (name : List UInt8) (kind : SymKind) (type : SymType) (isPtr : Bool)
    (offset addr : BitVec 32) (t : Symbols) : Symbols :=
  if t.symbols.length ≥ MAX_SYMBOLS then t
  else
    { t with
      symbols :=
        { name := cut name
          kind := kind
          type := type
          isPtr := isPtr
          offset := offset
          addr := addr
          scopeDepth := t.scope
          structName := [] } :: t.symbols }

/-- The newest symbol of that name. -/
def lookup (name : List UInt8) (t : Symbols) : Option Symbol :=
  t.symbols.find? (fun s => s.name == name)

/-- Change the newest symbol of that name. -/
def modify (name : List UInt8) (f : Symbol → Symbol) (t : Symbols) : Symbols :=
  { t with symbols := t.symbols.modify (t.symbols.findIdx (fun s => s.name == name)) f }

def enterScope (t : Symbols) : Symbols := { t with scope := t.scope + 1 }

/-- Remove the newest symbols as long as they are of the current scope. -/
def leaveScope (t : Symbols) : Symbols :=
  { t with
    symbols := t.symbols.dropWhile (fun s => s.scopeDepth == t.scope)
    scope := t.scope - 1 }

/-- Register a structure type; `none` if the table is full. -/
def structDefAdd (name : List UInt8) (t : Symbols) : Option Symbols :=
  if t.structs.length ≥ MAX_STRUCT_DEFS then none
  else some { t with structs := t.structs ++ [{ name := cut name, fields := [], size := 0 }] }

def structDefLookup (name : List UInt8) (t : Symbols) : Option StructDef :=
  t.structs.find? (fun d => d.name == name)

/-- The first field of that name. A structure that does not exist has none. -/
def structFieldLookup (d : Option StructDef) (name : List UInt8) : Option StructField :=
  d.bind (fun d => d.fields.find? (fun f => f.name == name))

/-- The table `init` starts with: the kernel's functions with their
    addresses, in the order they are entered. -/
def init (builtins : List (List UInt8 × BitVec 32)) : Symbols :=
  builtins.foldl (fun t b => t.add b.1 .kernFunc .int false 0 b.2)
    { symbols := [], scope := 0, structs := [] }

end Symbols

end SysRust.Rc
