import SysRust.Theory.Rc.Code
import SysRust.Theory.Rc.Emit

/-!
# Parsing

The vocabulary for what the parser does on given tokens. `Reads` says which
tokens the lexer delivers from a state; `Parses` that a call returns, with
any fuel from some amount on; `Emitted` that a stretch of the compilation has
appended some instructions and otherwise moved on in the text only.

## Main definitions

* `Reads`: The tokens between two states of the lexer.
* `Parses`: A call returns.
* `Emitted`: Code has been appended, and the tables are as they were.
* `Compiles`: A call parses up to a state of the lexer and emits code.

## Theorems

* `reads_append`: Reading in two parts.
* `Parses.intro`: A call returns if its body does.
* `Emitted.trans`, `emitted_asm`: Emitting code.
-/

namespace SysRust.Rc

open X86 Emitter

/-- The lexer delivers the tokens `ts`, and is at `l'` then. -/
def Reads (l : Lexer) : List Tok → Lexer → Prop
  | [], l' => l = l'
  | t :: ts, l' => l.tok = t ∧ Reads l.next ts l'

theorem reads_append {l l' : Lexer} {ts us : List Tok} :
    Reads l (ts ++ us) l' ↔ ∃ m, Reads l ts m ∧ Reads m us l' := by
  induction ts generalizing l with
  | nil => exact ⟨fun h => ⟨l, rfl, h⟩, fun ⟨m, h1, h2⟩ => by rw [show l = m from h1]; exact h2⟩
  | cons t ts ih =>
    simp only [List.cons_append, Reads, ih]
    exact ⟨fun ⟨ht, m, h1, h2⟩ => ⟨m, ⟨ht, h1⟩, h2⟩, fun ⟨m, ⟨ht, h1⟩, h2⟩ => ⟨ht, m, h1, h2⟩⟩

/-- The call returns `s'`, with any fuel from some amount on. -/
def Parses (c : Call) (s s' : Compiler) : Prop := ∃ N, ∀ n, N ≤ n → parse n c s = some s'

variable {s s' : Compiler} {is : List Instr}

/-- A call returns if its body does. -/
theorem Parses.intro {c : Call} (N : Nat) (h : ∀ n, N ≤ n → body (parse n) c s = some s') :
    Parses c s s' := by
  refine ⟨N + 1, fun n hn => ?_⟩
  cases n with
  | zero => omega
  | succ k => exact h k (by omega)

/-- What expressions leave alone: everything but the code, the place in the
    text and what is known about the value in `eax`. -/
def Compiler.tables (s : Compiler) : Compiler :=
  { s with
    emit := boot.emit
    lex := boot.lex
    ptrScale := 0
    exprStruct := boot.exprStruct }

/-- Code has been appended, and the tables are as they were. -/
structure Emitted (s s' : Compiler) (is : List Instr) : Prop where
  tables : s'.tables = s.tables
  grows : Grows s.emit s'.emit (assemble is)

theorem Emitted.refl (s : Compiler) : Emitted s s [] := ⟨rfl, Grows.refl s.emit⟩

theorem Emitted.trans {s'' : Compiler} {js : List Instr} (h1 : Emitted s s' is)
    (h2 : Emitted s' s'' js) : Emitted s s'' (is ++ js) := by
  refine ⟨h2.tables.trans h1.tables, ?_⟩
  rw [assemble_append]
  exact h1.grows.trans h2.grows

theorem emitted_asm {f : Emitter → Emitter} (h : Emits f is) (s : Compiler) :
    Emitted s (s.asm f) is := ⟨rfl, h.grows s.emit⟩

theorem Emitted.errors (h : Emitted s s' is) : s'.errors = s.errors := by
  have h' : s'.tables.errors = s.tables.errors := congrArg _ h.tables
  exact h'

theorem Emitted.syms (h : Emitted s s' is) : s'.syms = s.syms := by
  have h' : s'.tables.syms = s.tables.syms := congrArg _ h.tables
  exact h'

theorem hadError_false (h : s.errors = []) : s.hadError = false := by
  rw [Compiler.hadError, h]
  rfl

/-- The call parses up to `l'` and emits `is`, the code of a number. -/
def Compiles (c : Call) (s : Compiler) (l' : Lexer) (is : List Instr) : Prop :=
  ∃ s', Parses c s s' ∧ Emitted s s' is ∧ s'.lex = l' ∧ s'.ptrScale = 0

end SysRust.Rc
