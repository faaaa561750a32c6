import SysRust.Theory.Rc.Progress

/-!
# Calls Return

Every routine of the parser returns, whatever the text is. What a call costs is
measured by what is left to read, by whether an error has been reported, and by
the call itself: a routine that calls another one has consumed something before,
or the other one stands below it in the chain from statements down to primary
expressions.

The loops over statements and over the elements of an array do not consume
anything themselves. They rely on what they call: an expression and a statement
consume something or report an error, and an error ends the loop.

## Main definitions

* `Call.eats`: The calls that consume something or report an error.
* `Call.rank`, `cost`: What a call costs.
* `Below`: Two interpretations agree on the calls of lower cost.

## Theorems

* `agree_body`: A body returns if the calls of lower cost do.
* `parse_agree`: Every call returns, and the fuel does not matter.
-/

namespace SysRust.Rc

open Emitter Fuel

attribute [local irreducible] Emitter.bytes Emitter.byte Emitter.dword Emitter.patchDword

/-- Calls that consume something or report an error. -/
def Call.eats : Call → Bool
  | .expr => true
  | .or => true
  | .andExpr => true
  | .bitor => true
  | .bitxor => true
  | .bitand => true
  | .equal => true
  | .relational => true
  | .shift => true
  | .addExpr => true
  | .mul => true
  | .unary => true
  | .postfx => true
  | .primary => true
  | .stmt => true
  | .block => true
  | .ifStmt => true
  | _ => false

/-- Something has been consumed, or an error reported, if that is possible. -/
def Eats (s s' : Compiler) : Prop :=
  s.hadError = false → 0 < s.lex.weight → s'.lex.weight < s.lex.weight ∨ s'.hadError = true

/-- What a call does to the text and the errors. -/
def Post (c : Call) (s s' : Compiler) : Prop := Moves s s' ∧ (c.eats = true → Eats s s')

/-- The place of a call in the chain of calls that consume nothing in between.
    At the end of the text a block has no statements. -/
def Call.rank (w : Nat) : Call → Nat
  | .postfx => 1
  | .unary => 2
  | .mul => 3
  | .addExpr => 4
  | .shift => 5
  | .relational => 6
  | .equal => 7
  | .bitand => 8
  | .bitxor => 9
  | .bitor => 10
  | .andExpr => 11
  | .or => 12
  | .expr => 13
  | .arms _ _ _ _ => 14
  | .arrayInit _ _ => 14
  | .block => 1
  | .ifStmt => 14
  | .stmt => 15
  | .stmts => if w = 0 then 0 else 16
  | _ => 0

/-- What a call costs. -/
def cost (c : Call) (s : Compiler) : Nat :=
  32 * (2 * s.lex.weight + if s.hadError = true then 0 else 1) + c.rank s.lex.weight

theorem rank_lt (w : Nat) (c : Call) : c.rank w < 32 := by
  unfold Call.rank
  split
  all_goals
    first
    | omega
    | split_ifs <;> omega

theorem cost_lt (c : Call) (s : Compiler) : cost c s < 32 * (2 * s.lex.weight + 2) := by
  have hrank := rank_lt s.lex.weight c
  rw [cost]
  split_ifs <;> omega

variable {s s' t : Compiler} {x y : Option Compiler} {c c' : Call} {base : Compiler → Compiler}

theorem cost_lt_of_weight (c c' : Call) (h : s'.lex.weight < s.lex.weight) :
    cost c' s' < cost c s := by
  have hlt := cost_lt c' s'
  have hle : 32 * (2 * s.lex.weight) ≤ cost c s := by
    rw [cost]
    omega
  omega

theorem cost_lt_of_error (c c' : Call) (hm : Moves s s') (h : s.hadError = false)
    (h' : s'.hadError = true) : cost c' s' < cost c s := by
  have hrank := rank_lt s'.lex.weight c'
  have hw := hm.1
  rw [cost, cost, if_pos h', if_neg (by rw [h]; exact Bool.false_ne_true)]
  omega

theorem cost_lt_of_rank (hm : Moves s s') (h : c'.rank s.lex.weight < c.rank s.lex.weight) :
    cost c' s' < cost c s := by
  rcases Nat.lt_or_ge s'.lex.weight s.lex.weight with hlt | hge
  · exact cost_lt_of_weight c c' hlt
  · have heq : s'.lex.weight = s.lex.weight := Nat.le_antisymm hm.1 hge
    rw [cost, cost, heq]
    by_cases herr : s.hadError = true
    · rw [if_pos herr, if_pos (hm.2.2 herr)]
      omega
    · rw [if_neg herr]
      split_ifs <;> omega

/-- The two interpretations agree on the calls that cost less. -/
def Below (n : Nat) (self self' : Self) : Prop :=
  ∀ c s, cost c s < n → Agree (Post c s) (self c s) (self' c s)

theorem Past.post (h : Past s s') : Post c s s' :=
  ⟨h.1, fun _ _ _ => Or.inl h.2⟩

/-- What is consumed stays consumed, and an error stays reported. -/
theorem Moves.keeps (h : Moves s' t) (hs : s'.lex.weight < s.lex.weight ∨ s'.hadError = true) :
    t.lex.weight < s.lex.weight ∨ t.hadError = true :=
  hs.imp (Nat.lt_of_le_of_lt h.1) h.2.2

/-- Reporting an error is enough. -/
theorem post_of_error (h : Moves s s') (herr : s'.hadError = true) :
    Post c s s' := ⟨h, fun _ _ _ => Or.inr herr⟩

/-- Behind the current token something has been consumed, if there was any. -/
theorem post_of_next (h : Moves s.next s') : Post c s s' := by
  refine ⟨(moves_next s).trans h, fun _ _ hpos => Or.inl ?_⟩
  exact Nat.lt_of_le_of_lt h.1 ((Lexer.weight_next_lt s.lex).2 hpos)

section Bodies

variable {self self' : Self} (ih : Below (cost c s) self self')

include ih

/-- A call behind something that has been consumed. -/
theorem Below.behind (h : Past s t) (c' : Call) : Agree (Moves t) (self c' t) (self' c' t) :=
  (ih c' t (cost_lt_of_weight c c' h.2)).mono (fun _ hu => hu.1)

theorem Below.call (h : Past s t) (c' : Call) : Agree (Past s) (self c' t) (self' c' t) :=
  (ih.behind h c').mono (fun _ hu => h.trans hu)

/-- A call behind another one that has consumed something or reported an
    error. -/
theorem Below.again (hok : s.hadError = false) (hm : Moves s t)
    (h : t.lex.weight < s.lex.weight ∨ t.hadError = true) (c' : Call) :
    Agree (Moves s) (self c' t) (self' c' t) := by
  refine Agree.mono (ih c' t ?_) (fun _ hu => hm.trans hu.1)
  rcases h with hlt | herr
  · exact cost_lt_of_weight c c' hlt
  · exact cost_lt_of_error c c' hm hok herr

/-- A call of lower rank. -/
theorem Below.lower (h : Moves s t) (hr : c'.rank s.lex.weight < c.rank s.lex.weight) :
    Agree (Post c' t) (self c' t) (self' c' t) :=
  ih c' t (cost_lt_of_rank h hr)

/-! ### Calls and operators -/

theorem agree_emitFuncCall (h : Past s t) (name : List UInt8) (sym : Option Symbol) :
    Agree (Past s) (emitFuncCall self name sym t) (emitFuncCall self' name sym t) := by
  rw [emitFuncCall, emitFuncCall]
  split_ifs
  · exact Agree.some (h.trans (moves_finishCall name sym 0 t))
  · exact (ih.call h .expr).bind (fun u hu => ih.call hu.asm _)

theorem agree_assignThrough (h : Past s t) (asByte : Bool) :
    Agree (Past s) (assignThrough self asByte t) (assignThrough self' asByte t) :=
  (ih.call h.next.asm .expr).bind
    (fun _ hu => Agree.some hu.asm)

/-- A call with the operator, which is the token, consumed. -/
theorem agree_binary (h : s.tok ≠ .eof) (operand : Call) (f : Emitter → Emitter) :
    Agree (Past s) (binary self operand f s) (binary self' operand f s) :=
  (ih.call (past_next h).asm operand).bind
    (fun _ hu => Agree.some hu.asm)

theorem agree_logicalOr (h : s.tok ≠ .eof) (operand : Call) :
    Agree (Past s) (logicalOr self operand s) (logicalOr self' operand s) := by
  unfold logicalOr
  refine Agree.bind (ih.call ((past_next h).trans ?_) operand) (fun u hu => ?_)
  · exact moves_of_eq rfl rfl
  · exact Agree.some (hu.trans (moves_of_eq rfl rfl))

theorem agree_logicalAnd (h : s.tok ≠ .eof) (operand : Call) :
    Agree (Past s) (logicalAnd self operand s) (logicalAnd self' operand s) := by
  unfold logicalAnd
  refine Agree.bind (ih.call ((past_next h).trans ?_) operand) (fun u hu => ?_)
  · exact moves_of_eq rfl rfl
  · exact Agree.some hu.asm

theorem agree_additive (h : s.tok ≠ .eof) (f : Emitter → Emitter) :
    Agree (Past s) (additive self f s) (additive self' f s) := by
  have hscale : Past s ((s.setScale 0).next.asm (pushReg REG_EAX)) :=
    (past_next h).trans (moves_of_eq rfl rfl)
  refine (ih.call hscale .mul).bind (fun u hu => ?_)
  refine Agree.some (hu.trans ?_)
  split_ifs <;> exact moves_of_eq rfl rfl

/-- The operator behind an operand, if there is one. -/
theorem agree_binop :
    (binop self s = none ∧ binop self' s = none) ∨
      ∃ x y, binop self s = some x ∧ binop self' s = some y ∧ Agree (Past s) x y := by
  by_cases hend : s.tok = .eof
  · rw [binop, binop, hend]
    exact Or.inl ⟨rfl, rfl⟩
  · unfold binop
    split
    case h_1 => exact Or.inr ⟨_, _, rfl, rfl, agree_logicalOr ih hend _⟩
    case h_2 => exact Or.inr ⟨_, _, rfl, rfl, agree_logicalAnd ih hend _⟩
    case h_6 =>
      split
      case h_4 => exact Or.inr ⟨_, _, rfl, rfl, agree_additive ih hend _⟩
      case h_6 => exact Or.inl ⟨rfl, rfl⟩
      all_goals exact Or.inr ⟨_, _, rfl, rfl, agree_binary ih hend _ _⟩
    all_goals exact Or.inr ⟨_, _, rfl, rfl, agree_binary ih hend _ _⟩

theorem agree_parseBinops : Agree (Moves s) (parseBinops self s) (parseBinops self' s) := by
  rw [parseBinops, parseBinops]
  split_ifs
  · exact Agree.some (Moves.refl s)
  · rcases agree_binop ih with ⟨h, h'⟩ | ⟨x, y, h, h', hxy⟩
    · rw [h, h']
      exact Agree.some (Moves.refl s)
    · rw [h, h']
      exact (hxy.bind (fun u hu => ih.call hu .binops)).mono (fun _ hu => hu.1)

/-- A level of the precedence chain. -/
theorem agree_level {operand more : Call} (heats : operand.eats = true)
    (hop : operand.rank s.lex.weight < c.rank s.lex.weight)
    (hmore : more.rank s.lex.weight < c.rank s.lex.weight) :
    Agree (Post c s) (level self operand more s) (level self' operand more s) := by
  rw [level, level]
  split_ifs with herr
  · exact Agree.some (post_of_error (Moves.refl s) herr)
  · refine (ih.lower (Moves.refl s) hop).bind (fun u hu => ?_)
    refine (ih.lower hu.1 hmore).mono (fun v hv => ⟨hu.1.trans hv.1, fun _ hok hpos => ?_⟩)
    exact hv.1.keeps (hu.2 heats hok hpos)

/-- A turn of a loop over operators. -/
theorem agree_turn (h : Agree (Past s) x y) (c' : Call) :
    Agree (Moves s) (x.bind (self c')) (y.bind (self' c')) :=
  (h.bind (fun _ hu => ih.call hu c')).mono (fun _ hu => hu.1)

theorem agree_moreArgs (name : List UInt8) (sym : Option Symbol) (argc : Nat) :
    Agree (Moves s) (moreArgs self name sym argc s) (moreArgs self' name sym argc s) := by
  rw [moreArgs, moreArgs]
  split_ifs with h
  · exact ((ih.call (past_tok h Tok.noConfusion) .expr).bind
      (fun u hu => ih.call hu.asm _)).mono (fun _ hu => hu.1)
  · exact Agree.some (moves_finishCall name sym argc s)

/-! ### Expressions that start with a name or a star -/

theorem agree_parseDeref (h : Past s t) :
    Agree (Past s) (parseDeref self t) (parseDeref self' t) := by
  have hgeneral : Agree (Past s)
      ((self .unary t).bind (fun u =>
        if u.tok = .assign then assignThrough self (u.ptrScale == 1) u
        else self .binops ((u.asm (loadThrough (u.ptrScale == 1))).setScale 0)))
      ((self' .unary t).bind (fun u =>
        if u.tok = .assign then assignThrough self' (u.ptrScale == 1) u
        else self' .binops ((u.asm (loadThrough (u.ptrScale == 1))).setScale 0))) := by
    refine (ih.call h .unary).bind (fun u hu => ?_)
    split_ifs
    · exact agree_assignThrough ih hu _
    · exact ih.call (hu.asm.trans (moves_setScale 0 _)) .binops
  unfold parseDeref
  simp only []
  split
  · split
    · next p hp =>
        have hload := h.next.trans (moves_emitLoadSym p t.next)
        split_ifs
        · refine Agree.bind (ih.call ?_ .expr) (fun u hu => ?_)
          · exact h.next.next.trans
              (moves_emitLoadSym p _).asm
          · exact Agree.some hu.asm
        · exact ih.call (hload.asm.trans (moves_setScale 0 _)) .binops
    · exact hgeneral
  · exact hgeneral

theorem agree_parseMember (h : Past s t) (what : String) (v : Symbol)
    (hbase : ∀ u, Moves u (base u)) :
    Agree (Past s) (parseMember self what v base t) (parseMember self' what v base t) := by
  have hdot := h.next
  unfold parseMember
  simp only []
  split
  · have hname := hdot.next
    split
    · exact Agree.some hname.rcError
    · next f hf =>
        have hfield := (hname.trans (hbase _)).trans (moves_addField f _)
        split_ifs
        · exact agree_assignThrough ih hfield false
        · exact ih.call (hfield.asm.trans (moves_setScale _ _)) .binops
  · exact Agree.some hdot.rcError

theorem agree_parseCompound (h : Past s t) (v : Symbol) (op : Tok) (f : Emitter → Emitter) :
    Agree (Past s) (parseCompound self v op f t) (parseCompound self' v op f t) := by
  unfold parseCompound
  refine Agree.bind (ih.call ?_ .expr) (fun u hu => ?_)
  · exact (h.next.trans (moves_emitLoadSym v _)).asm
  · refine Agree.some ((hu.trans ?_).trans (moves_emitStoreSym v _))
    split_ifs <;> exact moves_of_eq rfl rfl

theorem agree_parseIndexed (h : Past s t) (v : Symbol) :
    Agree (Past s) (parseIndexed self v t) (parseIndexed self' v t) := by
  have hbase : Moves t (if v.isPtr then emitLoadSym v t else t.asm (leaEax v.offset)) := by
    split_ifs
    · exact moves_emitLoadSym v t
    · exact moves_asm _ t
  unfold parseIndexed
  refine Agree.bind (ih.call ?_ .expr) (fun u hu => ?_)
  · exact (h.trans hbase).asm.next
  · have hclose := hu.expect .rbracket
    generalize hasByte : (v.type == .char) = asByte
    have hscaled : Past s (if asByte then u.expect .rbracket else (u.expect .rbracket).asm
        (fun e => imul REG_EAX REG_ECX (movRegImm REG_ECX 4 e))) := by
      split_ifs
      · exact hclose
      · exact hclose.asm
    have haddr := hscaled.trans (moves_asm
      (fun e => add REG_EAX REG_ECX (popReg REG_EAX (movRegReg REG_ECX REG_EAX e))) _)
    refine Agree.ite (fun _ => ?_) (fun _ => ?_)
    · exact agree_assignThrough ih haddr asByte
    · exact ih.call haddr.asm .binops

theorem agree_parseIdent (h : Past s t) (name : List UInt8) (v : Symbol) :
    Agree (Past s) (parseIdent self name v t) (parseIdent self' name v t) := by
  rw [parseIdent, parseIdent]
  refine Agree.ite (fun _ => ?_) (fun _ => ?_)
  · exact (ih.call h.next .expr).bind (fun u hu => Agree.some (hu.trans (moves_emitStoreSym v u)))
  refine Agree.ite (fun _ => ?_) (fun _ => ?_)
  · exact agree_parseMember ih h _ v (moves_emitAddr v.kind v.offset v.addr)
  refine Agree.ite (fun _ => agree_parseMember ih h _ v (moves_emitLoadSym v)) (fun _ => ?_)
  split
  · exact agree_parseCompound ih h v _ _
  · split_ifs
    · exact agree_parseIndexed ih h v
    · exact (agree_emitFuncCall ih h.next name (some v)).bind
        (fun u hu => ih.call hu .binops)
    · exact ih.call (h.trans (moves_emitLoadSym v t)) .binops

theorem agree_parseExpr (hr : Call.rank s.lex.weight .or < c.rank s.lex.weight) :
    Agree (Post .expr s) (parseExpr self s) (parseExpr self' s) := by
  rw [parseExpr, parseExpr]
  split_ifs with herr
  · exact Agree.some (post_of_error (Moves.refl s) herr)
  split
  · next htok =>
      have hstar := past_tok htok Tok.noConfusion
      exact (agree_parseDeref ih hstar).mono (fun _ hu => hu.post)
  · next id htok =>
      have hname := past_tok htok Tok.noConfusion
      refine Agree.mono ?_ (fun _ (hu : Past s _) => hu.post)
      simp only []
      split
      · exact agree_parseIdent ih hname (cut id) _
      · split_ifs
        · exact (agree_emitFuncCall ih hname.next (cut id) none).bind
            (fun u hu => ih.call hu .binops)
        · exact ih.call hname.rcError.asm .binops
  · exact ih.lower (Moves.refl s) hr

/-! ### Operands -/

theorem agree_parseUnary (hr : Call.rank s.lex.weight .postfx < c.rank s.lex.weight) :
    Agree (Post .unary s) (parseUnary self s) (parseUnary self' s) := by
  rw [parseUnary, parseUnary]
  split_ifs with herr
  · exact Agree.some (post_of_error (Moves.refl s) herr)
  split
  · next htok =>
      have hop := past_tok htok Tok.noConfusion
      exact (ih.call hop .unary).map (fun u hu => hu.asm.post)
  · next htok =>
      have hop := past_tok htok Tok.noConfusion
      exact (ih.call hop .unary).map (fun u hu => hu.asm.post)
  · next htok =>
      have hop := past_tok htok Tok.noConfusion
      exact (ih.call hop .unary).map
        (fun u hu => (hu.asm.trans (moves_setScale 0 _)).post)
  · next htok =>
      have hop := past_tok htok Tok.noConfusion
      have hmut := hop.trans (moves_skip .mut _)
      simp only []
      split
      · split
        · exact Agree.some hmut.rcError.next.post
        · exact Agree.some (hmut.next.trans (moves_emitAddr _ _ _ _)).post
      · exact Agree.some hmut.rcError.post
  · exact ih.lower (Moves.refl s) hr

theorem agree_postfixMember (h : s.tok ≠ .eof) (what : String) (hbase : ∀ u, Moves u (base u)) :
    Agree (Moves s) (postfixMember self what base s) (postfixMember self' what base s) := by
  refine Agree.mono ?_ (fun _ (hu : Past s _) => hu.1)
  have hdot := past_next h
  unfold postfixMember
  simp only []
  split
  · have hname := hdot.next
    split
    · exact Agree.some hname.rcError
    · next f hf =>
        have hfield := (hname.trans (hbase _)).trans (moves_addField f _)
        refine ih.call (hfield.trans ?_) .postfxLoop
        exact moves_of_eq rfl rfl
  · exact Agree.some hdot.rcError

theorem agree_parsePostfixLoop :
    Agree (Moves s) (parsePostfixLoop self s) (parsePostfixLoop self' s) := by
  rw [parsePostfixLoop, parsePostfixLoop]
  refine Agree.ite (fun _ => Agree.some (Moves.refl s)) (fun _ => ?_)
  refine Agree.ite (fun hindex => ?_) (fun _ => ?_)
  · have hopen := past_tok hindex Tok.noConfusion
    refine Agree.mono ?_ (fun _ (hu : Past s _) => hu.1)
    refine (ih.call hopen.asm .expr).bind (fun u hu => ?_)
    refine ih.call ((hu.expect .rbracket).trans ?_) .postfxLoop
    split_ifs <;> exact moves_of_eq rfl rfl
  refine Agree.ite (fun harrow => ?_) (fun _ => ?_)
  · exact agree_postfixMember ih (harrow.1.trans_ne Tok.noConfusion) _ Moves.refl
  refine Agree.ite (fun hdot => ?_) (fun _ => ?_)
  · exact agree_postfixMember ih (hdot.1.trans_ne Tok.noConfusion) _ (moves_emitAddr _ _ _)
  refine Agree.ite (fun hcast => ?_) (fun _ => ?_)
  · have has := past_tok hcast Tok.noConfusion
    refine Agree.mono ?_ (fun _ (hu : Past s _) => hu.1)
    exact (parseType_moves s.next).bind
      (fun r hr => ih.call ((has.trans hr).trans (moves_setScale _ _)) .postfxLoop)
  · exact Agree.some (Moves.refl s)

theorem agree_parsePrimary :
    Agree (Post .primary s) (parsePrimary self s) (parsePrimary self' s) := by
  rw [parsePrimary, parsePrimary]
  refine Agree.ite (fun herr => Agree.some (post_of_error (Moves.refl s) herr)) (fun _ => ?_)
  cases htok : s.tok with
  | num v => exact Agree.some (past_literal v (htok.trans_ne Tok.noConfusion)).post
  | true_ => exact Agree.some (past_literal 1 (htok.trans_ne Tok.noConfusion)).post
  | false_ => exact Agree.some (past_literal 0 (htok.trans_ne Tok.noConfusion)).post
  | str text =>
    have hquiet := (moves_asm (byte 0xB8) s).trans (moves_asm (dword 0) _)
    have hstr : s.tok ≠ .eof := htok.trans_ne Tok.noConfusion
    exact Agree.some (hquiet.past (past_string _ _ hstr)).post
  | ident id =>
    have hname := past_tok htok Tok.noConfusion
    refine Agree.mono ?_ (fun _ (hu : Past s _) => hu.post)
    simp only []
    split_ifs
    · exact agree_emitFuncCall ih hname.next (cut id) _
    · split
      · exact Agree.some (hname.trans (moves_emitLoadSym _ _))
      · exact Agree.some hname.rcError.asm
  | lparen =>
    have hopen := past_tok htok Tok.noConfusion
    exact (ih.call hopen .expr).map (fun u hu => (hu.expect .rparen).post)
  | _ => exact Agree.some (post_of_error (moves_rcError _ s) (hadError_rcError _ s))

/-! ### Statements -/

theorem agree_parseArmBody (h : Past s t) :
    Agree (Past s) (parseArmBody self t) (parseArmBody self' t) := by
  rw [parseArmBody, parseArmBody]
  split_ifs
  · exact ih.call h .block
  · exact ih.call h .stmt

/-- The arms of a match: an arm consumes something, if only its arrow. -/
theorem agree_parseArms (old matchLocal : BitVec 32) (breaks : List Nat) (nextArm : Nat)
    (hr : Call.rank s.lex.weight .expr < c.rank s.lex.weight) :
    Agree (Moves s) (parseArms self old matchLocal breaks nextArm s)
      (parseArms self' old matchLocal breaks nextArm s) := by
  have hpatch : ∀ u : Compiler,
      Moves u (if nextArm ≠ 0 then u.asm (patchHere nextArm) else u) := by
    intro u
    by_cases hnext : nextArm ≠ 0
    · rw [if_pos hnext]
      exact moves_asm _ u
    · rw [if_neg hnext]
      exact Moves.refl u
  have harm : ∀ u : Compiler, Moves u (armEnd breaks u).1 := by
    intro u
    rw [armEnd]
    split_ifs
    · exact (moves_skip .comma u).trans (moves_hole _ _)
    · exact moves_skip .comma u
  rw [parseArms, parseArms]
  refine Agree.ite (fun hgo => ?_) (fun _ => ?_)
  · refine Agree.mono ?_ (fun _ (hu : Past s _) => hu.1)
    have hpos : 0 < s.lex.weight := Lexer.weight_pos hgo.2.1
    have hfirst := hpatch s
    generalize (if nextArm ≠ 0 then s.asm (patchHere nextArm) else s) = s1 at hfirst ⊢
    simp only []
    split_ifs with hdefault
    · have hunderscore := hfirst.past (past_tok hdefault Tok.noConfusion)
      have harrow := hunderscore.expect .fatArrow
      exact (agree_parseArmBody ih harrow).bind (fun u hu => ih.call (hu.trans (harm u)) _)
    · refine (ih.lower hfirst hr).bind (fun u hu => ?_)
      refine Agree.bind (agree_parseArmBody ih (past_expect .fatArrow ?_ hpos)) (fun v hv => ?_)
      · exact (hfirst.trans hu.1).trans ((moves_asm _ u).trans (moves_hole _ _))
      · exact ih.call (hv.trans (harm v)) _
  · refine Agree.some ((moves_expect .rbrace s).trans ((hpatch _).trans ?_))
    exact (moves_patchAll breaks _).trans (moves_of_eq rfl rfl)

theorem agree_parseMatch (h : s.tok ≠ .eof) :
    Agree (Past s) (parseMatch self s) (parseMatch self' s) := by
  unfold parseMatch
  refine Agree.bind (ih.call (past_next h) .expr) (fun u hu => ?_)
  refine ih.call (hu.trans ?_) _
  exact Moves.trans (moves_of_eq rfl rfl) (moves_expect .lbrace _)

theorem agree_parseLoop (h : s.tok ≠ .eof) :
    Agree (Past s) (parseLoop self s) (parseLoop self' s) := by
  unfold parseLoop
  refine Agree.bind (ih.call ((past_next h).trans (moves_loopPush _ _)) .block) (fun u hu => ?_)
  exact Agree.some (hu.asm.trans (moves_loopPop _))

theorem agree_parseWhile (h : s.tok ≠ .eof) :
    Agree (Past s) (parseWhile self s) (parseWhile self' s) := by
  unfold parseWhile
  refine Agree.bind (ih.call (past_next h) .expr) (fun u hu => ?_)
  have hexit := (hu.trans (moves_asm (cmpEaxImm 0) u)).trans (moves_hole (jccPlaceholder CC_E) _)
  refine Agree.bind (ih.call (hexit.trans (moves_loopPush _ _)) .block) (fun v hv => ?_)
  exact Agree.some (hv.asm.trans (moves_loopPop _))

theorem agree_parseFor (h : s.tok ≠ .eof) :
    Agree (Past s) (parseFor self s) (parseFor self' s) := by
  have hfor := (past_next h).trans (moves_sym Symbols.enterScope s.next)
  unfold parseFor
  simp only []
  split
  · next iter hiter =>
      have hin := hfor.next.expect .in_
      refine Agree.bind (ih.call hin .expr) (fun u hu => ?_)
      refine Agree.bind (ih.call (hu.trans ?_) .expr) (fun v hv => ?_)
      · exact Moves.trans (moves_of_eq rfl rfl) (moves_expect .doubleDot _)
      · refine Agree.bind (ih.call (hv.trans ?_) .block) (fun w hw => ?_)
        · exact Moves.trans (moves_of_eq rfl rfl) (moves_loopPush _ _)
        · exact Agree.some (hw.asm.trans (moves_loopPop _)).sym
  · exact Agree.some hfor.rcError

/-- The elements of an array: each is an expression, which consumes something
    or reports an error. -/
theorem agree_parseArrayInit (elemSize idx : BitVec 32)
    (hr : Call.rank s.lex.weight .expr < c.rank s.lex.weight) :
    Agree (Moves s) (parseArrayInit self elemSize idx s) (parseArrayInit self' elemSize idx s) := by
  rw [parseArrayInit, parseArrayInit]
  refine Agree.ite (fun hgo => ?_) (fun _ => ?_)
  · refine Agree.bind (ih.lower (Moves.refl s) hr) (fun u hu => ?_)
    have hstore := (moves_asm (storeLocal (s.localOffset + idx * elemSize) REG_EAX) u).trans
      (moves_skip .comma _)
    have hate := hu.2 rfl hgo.2.2 (Lexer.weight_pos hgo.2.1)
    exact ih.again hgo.2.2 (hu.1.trans hstore) (hstore.keeps hate) _
  · exact Agree.some (moves_expect .rbracket s)

theorem agree_letArray (h : Past s t) (name : List UInt8) (type : SymType) :
    Agree (Past s) (letArray self name type t) (letArray self' name type t) := by
  have hslot : ∀ size, Past s ((takeSlot size t).sym
      (Symbols.add name .loc type true (takeSlot size t).localOffset 0)) :=
    fun size => (h.trans (moves_takeSlot size t)).sym
  unfold letArray
  generalize (if type = .char then (1 : BitVec 32) else 4) = elemSize
  simp only []
  split_ifs
  · exact ih.call ((hslot _).trans (moves_next _).next) _
  · exact Agree.some ((hslot _).trans (moves_next _).rcError)
  · exact Agree.some (hslot _)

theorem agree_letWord (h : Past s t) (name sname : List UInt8) (type : SymType) (isPtr : Bool) :
    Agree (Past s) (letWord self name sname type isPtr t)
      (letWord self' name sname type isPtr t) := by
  have hslot : Past s ((takeSlot 4 t).sym
      (Symbols.add name .loc type isPtr (takeSlot 4 t).localOffset 0)) :=
    (h.trans (moves_takeSlot 4 t)).sym
  simp only [letWord]
  generalize (takeSlot 4 t).sym
    (Symbols.add name .loc type isPtr (takeSlot 4 t).localOffset 0) = t1 at hslot ⊢
  have hnamed : Past s (if sname ≠ [] then t1.setSymStruct name sname else t1) := by
    by_cases hs : sname ≠ []
    · rw [if_pos hs]
      exact hslot.sym
    · rw [if_neg hs]
      exact hslot
  generalize (if sname ≠ [] then t1.setSymStruct name sname else t1) = t2 at hnamed ⊢
  split_ifs
  · exact (ih.call hnamed.next .expr).map
      (fun u hu => hu.asm)
  · exact Agree.some hnamed

theorem agree_parseLet (h : s.tok ≠ .eof) :
    Agree (Past s) (parseLet self s) (parseLet self' s) := by
  have hmut := (past_next h).trans (moves_skip .mut s.next)
  unfold parseLet
  simp only []
  split
  · next id hid =>
      refine Agree.bind (parseType_moves _) (fun r hr => ?_)
      have htype := (hmut.next.expect .colon).trans hr
      split
      · exact Agree.some htype.rcError
      · next type isPtr hsome =>
          refine Agree.map (p := Past s) ?_ (fun u hu => hu.expect .semi)
          split_ifs
          · exact agree_letArray ih htype _ _
          · exact Agree.some (htype.trans (moves_of_eq rfl rfl))
          · exact agree_letWord ih htype _ _ _ _
  · exact Agree.some hmut.rcError

theorem agree_parseIf (hexpr : Call.rank s.lex.weight .expr < c.rank s.lex.weight)
    (hblock : Call.rank s.lex.weight .block < c.rank s.lex.weight) :
    Agree (Post .ifStmt s) (parseIf self s) (parseIf self' s) := by
  refine Agree.mono ?_ (fun _ (hu : Moves s.next _) => post_of_next hu)
  unfold parseIf
  refine Agree.bind (ih.lower (moves_next s) hexpr) (fun u hu => ?_)
  have hjump : Moves s.next ((u.asm (cmpEaxImm 0)).hole (jccPlaceholder CC_E)).1 :=
    hu.1.asm.trans (moves_hole _ _)
  refine Agree.bind (ih.lower ((moves_next s).trans hjump) hblock) (fun v hv => ?_)
  have hthen := hjump.trans hv.1
  refine Agree.ite (fun helse => ?_) (fun _ => ?_)
  · have hmore : Past v ((v.next.hole jmpPlaceholder).1.asm
        (patchHere ((u.asm (cmpEaxImm 0)).hole (jccPlaceholder CC_E)).2)) :=
      ((past_tok helse Tok.noConfusion).trans (moves_hole _ _)).asm
    have hpast := ((moves_next s).trans hthen).past hmore
    simp only []
    split_ifs
    · exact (ih.behind hpast .ifStmt).bind
        (fun w hw => Agree.some ((hthen.trans hmore.1).trans hw).asm)
    · exact (ih.behind hpast .block).bind
        (fun w hw => Agree.some ((hthen.trans hmore.1).trans hw).asm)
  · exact Agree.some hthen.asm

/-- At the end of the text a block is empty. -/
theorem agree_parseBlock
    (hr : s.lex.weight = 0 → Call.rank s.lex.weight .stmts < c.rank s.lex.weight) :
    Agree (Post .block s) (parseBlock self s) (parseBlock self' s) := by
  rw [parseBlock, parseBlock]
  refine Agree.ite (fun herr => Agree.some (post_of_error (Moves.refl s) herr)) (fun _ => ?_)
  have hopen : Moves s ((s.expect .lbrace).sym Symbols.enterScope) :=
    (moves_expect .lbrace s).sym
  rcases Nat.eq_zero_or_pos s.lex.weight with hz | hpos
  · refine Agree.bind (ih.lower hopen (hr hz)) (fun u hu => Agree.some ⟨?_, fun _ _ h => ?_⟩)
    · exact (hopen.trans hu.1).sym.expect .rbrace
    · exact absurd hz (Nat.ne_of_gt h)
  · have hpast : Past s ((s.expect .lbrace).sym Symbols.enterScope) :=
      (past_expect .lbrace (Moves.refl s) hpos).sym
    refine Agree.bind (ih.call hpast .stmts) (fun u hu => Agree.some (Past.post ?_))
    exact hu.sym.expect .rbrace

/-- The statements of a block: each consumes something or reports an error. -/
theorem agree_parseStmts
    (hr : 0 < s.lex.weight → Call.rank s.lex.weight .stmt < c.rank s.lex.weight) :
    Agree (Moves s) (parseStmts self s) (parseStmts self' s) := by
  rw [parseStmts, parseStmts]
  refine Agree.ite (fun hgo => ?_) (fun _ => ?_)
  · have hpos : 0 < s.lex.weight := Lexer.weight_pos hgo.2.1
    exact (ih.lower (Moves.refl s) (hr hpos)).bind
      (fun u hu => ih.again hgo.2.2 hu.1 (hu.2 rfl hgo.2.2 hpos) .stmts)
  · exact Agree.some (Moves.refl s)

theorem agree_parseStmt (hblock : Call.rank s.lex.weight .block < c.rank s.lex.weight)
    (hif : Call.rank s.lex.weight .ifStmt < c.rank s.lex.weight)
    (hexpr : Call.rank s.lex.weight .expr < c.rank s.lex.weight) :
    Agree (Post .stmt s) (parseStmt self s) (parseStmt self' s) := by
  rw [parseStmt, parseStmt]
  refine Agree.ite (fun herr => Agree.some (post_of_error (Moves.refl s) herr)) (fun _ => ?_)
  have hother : Agree (Post .stmt s) ((self .expr s).map (fun u => u.expect .semi))
      ((self' .expr s).map (fun u => u.expect .semi)) := by
    refine (ih.lower (Moves.refl s) hexpr).map (fun u hu => ?_)
    have hsemi := moves_expect .semi u
    exact ⟨hu.1.trans hsemi, fun _ hok hpos => hsemi.keeps (hu.2 rfl hok hpos)⟩
  cases htok : s.tok with
  | lbrace => exact ih.lower (Moves.refl s) hblock
  | return_ =>
    have hnext := past_tok htok Tok.noConfusion
    simp only []
    split_ifs
    · exact Agree.some (hnext.asm.expect .semi).post
    · exact (ih.call hnext .expr).bind
        (fun u hu => Agree.some (hu.asm.expect .semi).post)
  | if_ => exact ih.lower (Moves.refl s) hif
  | while_ =>
    exact (agree_parseWhile ih (htok.trans_ne Tok.noConfusion)).mono (fun _ hu => hu.post)
  | loop =>
    exact (agree_parseLoop ih (htok.trans_ne Tok.noConfusion)).mono (fun _ hu => hu.post)
  | for_ =>
    exact (agree_parseFor ih (htok.trans_ne Tok.noConfusion)).mono (fun _ hu => hu.post)
  | match_ =>
    exact (agree_parseMatch ih (htok.trans_ne Tok.noConfusion)).mono (fun _ hu => hu.post)
  | let_ =>
    exact (agree_parseLet ih (htok.trans_ne Tok.noConfusion)).mono (fun _ hu => hu.post)
  | unsafeKw =>
    exact (ih.call (past_tok htok Tok.noConfusion) .block).mono
      (fun _ hu => hu.post)
  | break_ =>
    refine Agree.some (post_of_next ((moves_hole jmpPlaceholder s.next).trans ?_))
    exact (moves_loopAddBreak _ _).expect .semi
  | continue_ =>
    refine Agree.some (post_of_next (Moves.expect ?_ .semi))
    split
    · exact moves_asm _ s.next
    · exact moves_rcError _ s.next
  | enum => exact (parseEnum_moves s).mono (fun _ hu => post_of_next hu)
  | semi => exact Agree.some (post_of_next (Moves.refl s.next))
  | _ => exact hother

end Bodies

/-! ### All calls -/

/-- Moving on is enough for a call that need not consume anything. -/
theorem agree_post (h : Agree (Moves s) x y) (hc : c.eats = false) : Agree (Post c s) x y :=
  h.mono (fun _ hu => ⟨hu, fun he => by rw [hc] at he; exact nomatch he⟩)

/-- A turn of the loop over the operator `op`, if that is the token. -/
theorem agree_opLoop {self self' : Self} (ih : Below (cost c s) self self') {op : Tok}
    (hop : op ≠ .eof) (h : s.tok ≠ .eof → Agree (Past s) x y) (hc : c.eats = false) :
    Agree (Post c s) (if s.tok = op then x.bind (self c) else some s)
      (if s.tok = op then y.bind (self' c) else some s) := by
  refine agree_post ?_ hc
  split_ifs with htok
  · exact agree_turn ih (h (by rw [htok]; exact hop)) c
  · exact Agree.some (Moves.refl s)

/-- The end of the text is no operator. -/
theorem ne_eof_of_op {A : Type} {table : Tok → Option A} (hend : table .eof = none) {t : Tok}
    {a : A} (h : table t = some a) : t ≠ .eof := by
  intro ht
  rw [ht, hend] at h
  cases h

/-- A body returns the same with two interpretations that agree on the calls
    of lower cost. -/
theorem agree_body (self self' : Self) (c : Call) (s : Compiler)
    (ih : Below (cost c s) self self') : Agree (Post c s) (body self c s) (body self' c s) := by
  cases c with
  | expr => exact agree_parseExpr ih (by simp [Call.rank])
  | binops => exact agree_post (agree_parseBinops ih) rfl
  | or | andExpr | bitor | bitxor | bitand | equal | relational | shift | addExpr | mul | postfx =>
    exact agree_level ih rfl (by simp [Call.rank]) (by simp [Call.rank])
  | orLoop => exact agree_opLoop ih Tok.noConfusion (fun h => agree_logicalOr ih h _) rfl
  | andLoop => exact agree_opLoop ih Tok.noConfusion (fun h => agree_logicalAnd ih h _) rfl
  | bitorLoop | bitxorLoop | bitandLoop =>
    exact agree_opLoop ih Tok.noConfusion (fun h => agree_binary ih h _ _) rfl
  | equalLoop | relationalLoop | shiftLoop | mulLoop =>
    simp only [body, parseEqualLoop, parseRelationalLoop, parseShiftLoop, parseMulLoop]
    refine agree_post ?_ rfl
    split
    · next hop => exact agree_turn ih (agree_binary ih (ne_eof_of_op rfl hop) _ _) _
    · exact Agree.some (Moves.refl s)
  | addLoop =>
    rw [body, body, parseAddLoop, parseAddLoop]
    refine agree_post ?_ rfl
    split
    · next hop => exact agree_turn ih (agree_additive ih (ne_eof_of_op rfl hop) _) _
    · exact Agree.some (Moves.refl s)
  | unary => exact agree_parseUnary ih (by simp [Call.rank])
  | postfxLoop => exact agree_post (agree_parsePostfixLoop ih) rfl
  | primary => exact agree_parsePrimary ih
  | moreArgs name sym argc => exact agree_post (agree_moreArgs ih name sym argc) rfl
  | stmt =>
    exact agree_parseStmt ih (by simp [Call.rank]) (by simp [Call.rank]) (by simp [Call.rank])
  | block =>
    refine agree_parseBlock ih (fun hz => ?_)
    rw [hz]
    decide
  | stmts =>
    refine agree_post (agree_parseStmts ih (fun hpos => ?_)) rfl
    simp only [Call.rank]
    rw [if_neg (by omega)]
    decide
  | ifStmt => exact agree_parseIf ih (by simp [Call.rank]) (by simp [Call.rank])
  | arms old matchLocal breaks nextArm =>
    exact agree_post (agree_parseArms ih old matchLocal breaks nextArm (by simp [Call.rank])) rfl
  | arrayInit elemSize idx =>
    exact agree_post (agree_parseArrayInit ih elemSize idx (by simp [Call.rank])) rfl

theorem parse_eq_fix (n : Nat) : parse n = fix body n := by
  induction n with
  | zero => rfl
  | succ k ih =>
    funext c s
    rw [parse, fix, ih]

/-- Every call returns, with any fuel above its cost, and always the same. -/
theorem parse_agree {m n : Nat} (hm : cost c s < m) (hn : cost c s < n) :
    Agree (Post c s) (parse m c s) (parse n c s) := by
  rw [parse_eq_fix, parse_eq_fix]
  exact agree_fix agree_body hm hn

end SysRust.Rc
