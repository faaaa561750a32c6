import SysRust.Theory.Rc.Total

/-!
# The Compiler Terminates

Declarations are parsed by loops of their own, over parameters, over fields and
over the declarations themselves. Each turn consumes a token, so there are no
more turns than tokens. Together with the calls of the parser this covers the
whole compiler: on every text it returns, with fuel that is linear in the length
of the text.

## Theorems

* `paramLoop_moves`, `fieldLoop_moves`: Parameters and fields.
* `agree_parseDecls`: The declarations of a program.
* `compiler_terminates`: The lexer and the parser return on every text.
-/

namespace SysRust.Rc

open Cursor Emitter Fuel

attribute [local irreducible] Emitter.bytes Emitter.byte Emitter.dword Emitter.patchDword

/-- A name that may be followed by a structure type. -/
theorem moves_named (name : List UInt8) (s : Compiler) :
    Moves s (if s.parsedStructName ≠ [] then s.setSymStruct name s.parsedStructName else s) := by
  by_cases h : s.parsedStructName ≠ []
  · rw [if_pos h]
    exact moves_sym _ s
  · rw [if_neg h]
    exact Moves.refl s

variable {n : Nat} {s t : Compiler}

/-- Another turn of a loop, from anywhere behind the current token. -/
theorem agree_turn_behind {A : Type} {f : A → Compiler} {x : Option A} (h : s.lex.left < n + 1)
    (htok : s.tok ≠ .eof) (ht : Moves s.next t)
    (ih : t.lex.left < n → Agree (fun a => Moves t (f a)) x x) :
    Agree (fun a => Moves s (f a)) x x := by
  have hlt := left_lt_of_next htok ht
  exact (ih (by omega)).mono (fun _ ha => ((moves_next s).trans ht).trans ha)

/-- Every parameter takes a token. -/
theorem paramLoop_moves (count : Nat) (h : s.lex.left < n) :
    Agree (Moves s) (paramLoop n count s) (paramLoop n count s) := by
  induction n generalizing s count with
  | zero => exact absurd h (Nat.not_lt_zero _)
  | succ k ih =>
    rw [paramLoop]
    split_ifs with hdone
    · exact Agree.some (Moves.refl s)
    split
    · next id htok =>
        refine Agree.bind (parseType_moves _) (fun r hr => ?_)
        have htype : Moves s.next r.2 := (moves_expect .colon s.next).trans hr
        split
        · exact Agree.some ((moves_next s).trans htype).rcError
        · refine agree_turn_behind (f := fun u => u) h (htok.trans_ne Tok.noConfusion) ?_ (ih _)
          exact (htype.sym.trans (moves_named (cut id) _)).trans
            (moves_skip .comma _)
    · exact Agree.some (moves_rcError _ s)

/-- Every field takes a token. -/
theorem fieldLoop_moves (count : Nat) (h : s.lex.left < n) :
    Agree (fun r => Moves s r.1) (fieldLoop n count s) (fieldLoop n count s) := by
  induction n generalizing s count with
  | zero => exact absurd h (Nat.not_lt_zero _)
  | succ k ih =>
    rw [fieldLoop]
    by_cases hdone : s.tok = .rbrace ∨ s.tok = .eof ∨ s.hadError = true
    · rw [if_pos hdone]
      exact Agree.some (Moves.refl s)
    rw [if_neg hdone]
    split
    · next id htok =>
        refine Agree.bind (parseType_moves _) (fun r hr => ?_)
        have htype : Moves s.next r.2 := (moves_expect .colon s.next).trans hr
        split
        · exact Agree.some ((moves_next s).trans htype).rcError
        · split_ifs
          · exact Agree.some ((moves_next s).trans htype).rcError
          · refine agree_turn_behind h (htok.trans_ne Tok.noConfusion) ?_ (ih _)
            exact htype.sym.trans (moves_skip .comma _)
    · exact Agree.some (moves_rcError _ s)

theorem parseReturnType_moves (s : Compiler) :
    Agree (fun r => Moves s r.2) (parseReturnType s) (parseReturnType s) := by
  rw [parseReturnType]
  split_ifs
  · exact (parseType_moves s.next).bind (fun r hr => Agree.some ((moves_next s).trans hr))
  · exact Agree.some (Moves.refl s)

theorem functionHead_moves (id : List UInt8) (s : Compiler) :
    Agree (Moves s) (functionHead id s) (functionHead id s) := by
  have hopen : Moves s (((s.next.sym (Symbols.add (cut id) .func .void false
      (BitVec.ofNat 32 s.next.pos) 0)).expect .lparen).sym Symbols.enterScope) :=
    ((moves_next s).sym.expect .lparen).sym
  refine Agree.bind (paramLoop_moves 0 (left_lt_turns _)) (fun u hu => ?_)
  refine Agree.bind (parseReturnType_moves _) (fun r hr => Agree.some ?_)
  exact (((hopen.trans hu).expect .rparen).trans hr).sym

/-! ### Declarations

Each moves on behind its keyword. -/

theorem parseStructDef_moves (s : Compiler) :
    Agree (Moves s.next) (parseStructDef s) (parseStructDef s) := by
  simp only [parseStructDef]
  split
  · split
    · exact Agree.some (moves_next s.next)
    · next syms hsyms =>
        have hopen : Moves s.next (({ s.next.next with syms := syms } : Compiler).expect .lbrace) :=
          ((moves_next s.next).trans (moves_of_eq rfl rfl)).expect .lbrace
        refine Agree.bind (fieldLoop_moves 0 (left_lt_turns _)) (fun r hr => Agree.some ?_)
        exact (hopen.trans hr).sym.expect .rbrace
  · exact Agree.some (moves_rcError _ s.next)

theorem moves_signedNumber (s : Compiler) : Moves s (signedNumber s).2 := by
  simp only [signedNumber]
  split
  · exact moves_skip .minus s
  · exact moves_skip .minus s

theorem moves_staticInit (addr : BitVec 32) (s : Compiler) : Moves s (staticInit addr s) := by
  have hnumber := (moves_next s).trans (moves_signedNumber s.next)
  rw [staticInit]
  split_ifs
  · simp only []
    split
    · refine hnumber.next.trans ?_
      rw [addGlobalInit]
      split_ifs
      · exact moves_of_eq rfl rfl
      · exact Moves.refl _
    · exact hnumber.rcError
  · exact Moves.refl s

theorem moves_staticVar (name : List UInt8) (type : SymType) (isPtr : Bool) (s : Compiler) :
    Moves s (staticVar name type isPtr s) := by
  refine Moves.trans ?_ (moves_expect .semi _)
  refine Moves.trans ?_ (moves_staticInit _ _)
  exact Moves.trans (moves_of_eq rfl rfl) (moves_named name _)

theorem parseGlobalStatic_moves (s : Compiler) :
    Agree (Moves s.next) (parseGlobalStatic s) (parseGlobalStatic s) := by
  have hmut := moves_skip .mut s.next
  simp only [parseGlobalStatic]
  split
  · refine Agree.bind (parseType_moves _) (fun r hr => ?_)
    have htype := (hmut.next.expect .colon).trans hr
    split
    · exact Agree.some htype.rcError
    · exact Agree.some (htype.trans (moves_staticVar _ _ _ _))
  · exact Agree.some hmut.rcError

theorem parseGlobalConst_moves (s : Compiler) :
    Agree (Moves s.next) (parseGlobalConst s) (parseGlobalConst s) := by
  simp only [parseGlobalConst]
  split
  · refine Agree.bind (parseType_moves _) (fun r hr => ?_)
    have htype := ((moves_next s.next).expect .colon).trans hr
    have hnumber := (htype.expect .assign).trans (moves_signedNumber _)
    split
    · exact Agree.some htype.rcError
    · split
      · exact Agree.some hnumber.rcError
      · exact Agree.some (hnumber.next.sym.expect .semi)
  · exact Agree.some (moves_rcError _ s.next)

theorem parseTypeAlias_moves (s : Compiler) :
    Agree (Moves s.next) (parseTypeAlias s) (parseTypeAlias s) := by
  simp only [parseTypeAlias]
  split
  · refine Agree.bind (parseType_moves _) (fun r hr => ?_)
    have htype := ((moves_next s.next).expect .assign).trans hr
    split
    · exact Agree.some htype.rcError
    · refine Agree.some (Moves.trans ?_ (moves_expect .semi _))
      rw [addTypedef]
      split_ifs
      · exact htype.trans (moves_of_eq rfl rfl)
      · exact htype
  · exact Agree.some (moves_rcError _ s.next)

section Programs

variable {N : Nat} {self self' : Self} (ih : Below N self self')
  (hN : 32 * (2 * s.lex.weight + 2) ≤ N)

include ih hN

/-- A call from anywhere behind `s`. -/
theorem agree_call {t : Compiler} (h : Moves s t) (c : Call) :
    Agree (Moves t) (self c t) (self' c t) := by
  have hlt := cost_lt c t
  have hle := h.1
  exact (ih c t (by omega)).mono (fun _ hu => hu.1)

theorem agree_parseFunction :
    Agree (Moves s.next) (parseFunction self s) (parseFunction self' s) := by
  simp only [parseFunction]
  split
  · next id hid =>
      refine Agree.bind (functionHead_moves id s.next) (fun u hu => ?_)
      have hprologue : Moves s.next ({ (u.asm (Emitter.bytes [0x55, 0x89, 0xE5, 0x81, 0xEC])).asm
          (Emitter.dword 0) with localOffset := 0 } : Compiler) := hu.trans (moves_of_eq rfl rfl)
      refine Agree.bind (agree_call ih hN ((moves_next s).trans hprologue) .block) (fun v hv => ?_)
      exact Agree.some ((hprologue.trans hv).trans (moves_of_eq rfl rfl))
  · exact Agree.some (moves_rcError _ s.next)

end Programs

/-- Every declaration takes a token. -/
theorem agree_parseDecls {N : Nat} {self self' : Self} (ih : Below N self self')
    (hN : 32 * (2 * s.lex.weight + 2) ≤ N) (h : s.lex.left < n) :
    Agree (Moves s) (parseDecls self n s) (parseDecls self' n s) := by
  induction n generalizing s with
  | zero => exact absurd h (Nat.not_lt_zero _)
  | succ k ihk =>
    rw [parseDecls, parseDecls]
    refine Agree.ite (fun _ => Agree.some (Moves.refl s)) (fun hdone => ?_)
    rw [not_or] at hdone
    -- The declarations behind one that has been parsed.
    have hrest : ∀ {t : Compiler}, Moves s.next t →
        Agree (Moves s) (parseDecls self k t) (parseDecls self' k t) := by
      intro t ht
      have hlt := left_lt_of_next hdone.1 ht
      have hmoves := (moves_next s).trans ht
      have hle := hmoves.1
      exact (ihk (by omega) (by omega)).mono (fun _ hu => hmoves.trans hu)
    cases htok : s.tok with
    | fn => exact (agree_parseFunction ih hN).bind (fun _ hu => hrest hu)
    | struct => exact (parseStructDef_moves s).bind (fun _ hu => hrest hu)
    | enum => exact (parseEnum_moves s).bind (fun _ hu => hrest hu)
    | static => exact (parseGlobalStatic_moves s).bind (fun _ hu => hrest hu)
    | const => exact (parseGlobalConst_moves s).bind (fun _ hu => hrest hu)
    | type => exact (parseTypeAlias_moves s).bind (fun _ hu => hrest hu)
    | unsafeKw => exact hrest (Moves.refl s.next)
    | _ => exact Agree.some (moves_rcError _ s)

/-- Compilation returns, with fuel that is linear in the length of the text. -/
theorem rcCompile_agree {m : Nat} (builtins : List (List UInt8 × BitVec 32)) {source : List UInt8}
    (s : Compiler) (hm : 64 * (2 * source.length + 1) ≤ m) (hn : 64 * (2 * source.length + 1) ≤ n) :
    Agree (fun _ => True) (rcCompile m builtins source s) (rcCompile n builtins source s) := by
  have hbelow : Below (64 * (2 * source.length + 1)) (parse m) (parse n) :=
    fun c t hlt => parse_agree (Nat.lt_of_lt_of_le hlt hm) (Nat.lt_of_lt_of_le hlt hn)
  generalize hs1 : ((reset (start builtins source s)).asm (byte 0xE9)).asm (dword 0) = s1
  have hlex : s1.lex = (Lexer.init source).next := by
    rw [← hs1]
    rfl
  have hweight : s1.lex.weight ≤ 2 * source.length := by
    have hinit : (Lexer.init source).weight = 2 * source.length := rfl
    rw [hlex, ← hinit]
    exact (Lexer.weight_next_lt _).1
  have hdecls := agree_parseDecls hbelow (s := s1) (by omega) (left_lt_turns s1)
  rw [← hs1] at hdecls
  refine Agree.map (p := fun _ => True) (Agree.map hdecls ?_) ?_
  · exact fun _ _ => trivial
  · exact fun _ _ => trivial

/-- The compiler terminates on every text. The loops of the lexer leave because
    they are done, and every token leaves less of the text; every routine of
    the parser returns from every state, having moved on only; and so does a
    compilation, with any fuel that is linear in the length of the text. -/
theorem compiler_terminates :
    (∀ (c : Cursor) (n : Nat), c.src.length ≤ n →
      AtToken (skipLoop n c).src ∧ BehindBlock c.src (skipBlock n c).src ∧
        (∀ b ∈ (skipLine n c).src.head?, b = 0x0A) ∧
        (∀ b ∈ (lexStringBody n c).2.src.head?, b = 0x22)) ∧
    (∀ l : Lexer, l.next.weight < l.weight ∨ l.weight = 0 ∧ l.next.weight = 0) ∧
    (∀ (c : Call) (s : Compiler), ∃ s', Moves s s' ∧ ∀ n, cost c s < n → parse n c s = some s') ∧
    (∀ (builtins : List (List UInt8 × BitVec 32)) (source : List UInt8) (s : Compiler), ∃ r, ∀ n,
      64 * (2 * source.length + 1) ≤ n → rcCompile n builtins source s = some r) := by
  refine ⟨fun c n h => ⟨skipLoop_done h, skipBlock_done h, skipLine_done h, lexStringBody_done h⟩,
    Lexer.weight_next, fun c s => ?_, fun builtins source s => ?_⟩
  · rcases parse_agree (Nat.lt_succ_self (cost c s)) (Nat.lt_succ_self (cost c s)) with
      ⟨s', hs', -, hpost⟩
    refine ⟨s', hpost.1, fun n hn => ?_⟩
    rcases parse_agree (Nat.lt_succ_self (cost c s)) hn with ⟨t, ht, htn, -⟩
    rw [htn, ← ht, hs']
  · rcases rcCompile_agree builtins s (Nat.le_refl _) (Nat.le_refl _) with ⟨r, hr, -, -⟩
    refine ⟨r, fun n hn => ?_⟩
    rcases rcCompile_agree builtins s (Nat.le_refl _) hn with ⟨r', hr', hrn, -⟩
    rw [hrn, ← hr', hr]

/-- A function with no end, in an unterminated comment. -/
theorem compiler_terminates_open :
    AtToken (skipLoop 4 ⟨ascii "/* ", 1⟩).src ∧
      ∃ r, ∀ n, 2112 ≤ n → rcCompile n [] (ascii "fn main( \x7b\x7b @ /*") boot = some r := by
  refine ⟨(compiler_terminates.1 ⟨ascii "/* ", 1⟩ 4 (by decide)).1, ?_⟩
  rcases compiler_terminates.2.2.2 [] (ascii "fn main( \x7b\x7b @ /*") boot with ⟨r, hr⟩
  exact ⟨r, fun n hn => hr n (Nat.le_trans (by decide) hn)⟩

end SysRust.Rc
