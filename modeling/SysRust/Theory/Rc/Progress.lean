import Mathlib.Data.List.TakeWhile
import SysRust.Core.Rc.Parse
import SysRust.Lib.Fuel

/-!
# Moving on in the Text

The lexer only moves forward. Its loops over white space, comments and strings
leave because they are done, and each token takes at least one byte, so that
the token under the cursor and the bytes behind it make a measure that every
`next` lowers, except at the end. A byte that starts no token reads as the end
of the text in the middle of it; there the token counts nothing and the bytes
behind it count on.

The routines of the parser move the lexer, report errors and emit code. `Moves`
is what all of them have in common, and `Past` is having consumed something.

## Main definitions

* `AtToken`, `BehindBlock`: Where the loops over white space leave.
* `Lexer.weight`, `Lexer.left`: What is left to read, and how many tokens.
* `Moves`, `Past`: Moving on, and consuming something.

## Theorems

* `skipLoop_done`, `skipBlock_done`, `skipLine_done`, `lexStringBody_done`: Why
  the loops of the lexer leave.
* `weight_next`, `left_next`: `next` lowers what is left.
* `parseType_moves`, `enumLoop_moves`: Types and constants.
-/

namespace SysRust.Rc

open List

/-! ### The loops of the lexer -/

/-- Nothing to skip: no white space, and no comment. -/
def AtToken (src : List UInt8) : Prop :=
  (∀ b ∈ src.head?, isspace b = false) ∧ ¬ [0x2F, 0x2A] <+: src ∧ ¬ [0x2F, 0x2F] <+: src

theorem atToken_nil : AtToken [] := ⟨(fun _ hb => nomatch hb), by decide, by decide⟩

/-- `rest` is what follows a `*/` of the text, or nothing. -/
def BehindBlock (src rest : List UInt8) : Prop :=
  rest = [] ∨ ∃ comment, src = comment ++ 0x2A :: 0x2F :: rest

namespace Cursor

@[simp]
theorem advance_src (c : Cursor) : c.advance.src = c.src.tail := by
  unfold advance
  split
  · next hsrc => rw [hsrc, tail_nil]
  · next b rest hsrc => rw [hsrc, List.tail_cons]

theorem length_advance (c : Cursor) : c.advance.src.length = c.src.length - 1 := by
  rw [advance_src, length_tail]

end Cursor

open Cursor Fuel

variable {n : Nat} {s t u : Compiler} {c : Cursor}

theorem length_advance_le (h : c.src.length ≤ n + 1) : c.advance.src.length ≤ n := by
  rw [length_advance]
  omega

theorem le_of_advance (h : n ≤ c.advance.src.length) : n ≤ c.src.length :=
  h.trans (length_advance c ▸ Nat.sub_le _ _)

/-- A block comment ends behind `*/` or at the end of the text. -/
theorem skipBlock_done (h : c.src.length ≤ n) : BehindBlock c.src (skipBlock n c).src := by
  fun_induction skipBlock n c with
  | case1 c => exact Or.inl (length_eq_zero_iff.mp (Nat.le_zero.mp h))
  | case2 k c hsrc => exact Or.inl hsrc
  | case3 k c rest hsrc =>
    refine Or.inr ⟨[], ?_⟩
    rw [advance_src, advance_src, hsrc]
    rfl
  | case4 k c hnil _ ih =>
    rcases ih (length_advance_le h) with hend | ⟨comment, hsrc⟩
    · exact Or.inl hend
    · cases hc : c.src with
      | nil => exact absurd hc hnil
      | cons b rest =>
        rw [advance_src, hc] at hsrc
        exact Or.inr ⟨b :: comment, by rw [cons_append, ← hsrc]; rfl⟩

theorem length_skipBlock (n : Nat) (c : Cursor) : (skipBlock n c).src.length ≤ c.src.length := by
  fun_induction skipBlock n c with
  | case1 | case2 => exact Nat.le_refl _
  | case3 => exact le_of_advance (le_of_advance (Nat.le_refl _))
  | case4 _ _ _ _ ih => exact le_of_advance ih

/-- A line comment ends at a newline or at the end of the text. -/
theorem skipLine_done (h : c.src.length ≤ n) : ∀ b ∈ (skipLine n c).src.head?, b = 0x0A := by
  fun_induction skipLine n c with
  | case1 c =>
    rw [length_eq_zero_iff.mp (Nat.le_zero.mp h)]
    exact fun _ hb => nomatch hb
  | case2 k c hsrc =>
    rw [hsrc]
    exact fun _ hb => nomatch hb
  | case3 k c rest hsrc =>
    rw [hsrc]
    exact fun x hx => (Option.some.inj hx).symm
  | case4 k c b rest _ _ ih => exact ih (length_advance_le h)

theorem length_skipLine (n : Nat) (c : Cursor) : (skipLine n c).src.length ≤ c.src.length := by
  fun_induction skipLine n c with
  | case1 | case2 | case3 => exact Nat.le_refl _
  | case4 _ _ _ _ _ _ ih => exact le_of_advance ih

/-- The loop over white space leaves in front of a token or at the end. -/
theorem skipLoop_done (h : c.src.length ≤ n) : AtToken (skipLoop n c).src := by
  fun_induction skipLoop n c with
  | case1 c =>
    rw [length_eq_zero_iff.mp (Nat.le_zero.mp h)]
    exact atToken_nil
  | case2 k c rest hsrc ih =>
    refine ih ?_
    have hle := length_skipBlock c.src.length c.advance.advance
    rw [length_advance, length_advance] at hle
    omega
  | case3 k c rest hsrc ih =>
    refine ih ?_
    have hle := length_skipLine c.src.length c.advance.advance
    rw [length_advance, length_advance] at hle
    omega
  | case4 k c b rest _ _ _ _ ih => exact ih (length_advance_le h)
  | case5 k c b rest hblock hline hsrc hb =>
    rw [hsrc]
    refine ⟨fun x hx => ?_, ?_, ?_⟩
    · rw [← Option.some.inj hx]
      exact Bool.not_eq_true _ ▸ hb
    · rintro ⟨t, ht⟩
      rw [cons_append, cons_append, List.cons.injEq] at ht
      exact hblock t ht.1.symm ht.2.symm
    · rintro ⟨t, ht⟩
      rw [cons_append, cons_append, List.cons.injEq] at ht
      exact hline t ht.1.symm ht.2.symm
  | case6 k c hsrc =>
    rw [hsrc]
    exact atToken_nil

theorem length_skipLoop (n : Nat) (c : Cursor) : (skipLoop n c).src.length ≤ c.src.length := by
  fun_induction skipLoop n c with
  | case1 | case5 | case6 => exact Nat.le_refl _
  | case2 _ _ _ _ ih => exact le_of_advance (le_of_advance (ih.trans (length_skipBlock _ _)))
  | case3 _ _ _ _ ih => exact le_of_advance (le_of_advance (ih.trans (length_skipLine _ _)))
  | case4 _ _ _ _ _ _ _ _ ih => exact le_of_advance ih

/-- The text of a string ends at a quote or at the end of the text. -/
theorem lexStringBody_done (h : c.src.length ≤ n) :
    ∀ b ∈ (lexStringBody n c).2.src.head?, b = 0x22 := by
  fun_induction lexStringBody n c with
  | case1 c =>
    rw [length_eq_zero_iff.mp (Nat.le_zero.mp h)]
    exact fun _ hb => nomatch hb
  | case2 k c hsrc =>
    rw [hsrc]
    exact fun _ hb => nomatch hb
  | case3 k c rest hsrc =>
    rw [hsrc]
    exact fun x hx => (Option.some.inj hx).symm
  | case4 k c rest _ _ _ ih =>
    refine ih ?_
    rw [length_advance, length_advance]
    omega
  | case5 k c b rest _ _ _ _ ih => exact ih (length_advance_le h)

theorem length_lexStringBody (n : Nat) (c : Cursor) :
    (lexStringBody n c).2.src.length ≤ c.src.length := by
  fun_induction lexStringBody n c with
  | case1 | case2 | case3 => exact Nat.le_refl _
  | case4 _ _ _ _ _ _ ih => exact le_of_advance (le_of_advance ih)
  | case5 _ _ _ _ _ _ _ _ ih => exact le_of_advance ih

/-! ### Tokens take bytes -/

theorem length_advanceIf (p : Prop) [Decidable p] (c : Cursor) :
    (if p then c.advance else c).src.length ≤ c.src.length := by
  by_cases h : p
  · rw [if_pos h, length_advance]
    exact Nat.sub_le _ _
  · rw [if_neg h]

theorem length_lexHex (src : List UInt8) (v : BitVec 32) :
    (lexHex src v).2.length ≤ src.length := by
  induction src generalizing v with
  | nil => exact Nat.le_refl _
  | cons d src ih =>
    rw [lexHex]
    split
    · exact Nat.le_succ_of_le (ih _)
    · exact Nat.le_refl _

theorem length_lexDecimal (src : List UInt8) (v : BitVec 32) :
    (lexDecimal src v).2.length ≤ src.length := by
  induction src generalizing v with
  | nil => exact Nat.le_refl _
  | cons d src ih =>
    rw [lexDecimal]
    split
    · exact Nat.le_succ_of_le (ih _)
    · exact Nat.le_refl _

theorem length_lexNext (c : Cursor) (longer : List (UInt8 × Tok)) (short : Tok) :
    (lexNext c longer short).2.src.length ≤ c.src.length := by
  unfold lexNext
  split
  · rw [length_advance]
    exact Nat.sub_le _ _
  · exact Nat.le_refl _

theorem length_lexOp {b : UInt8} {r : Tok × Cursor} (h : lexOp b c = some r) :
    r.2.src.length ≤ c.src.length := by
  unfold lexOp at h
  split at h
  all_goals cases h
  all_goals
    first
    | exact length_lexNext _ _ _
    | exact Nat.le_refl _

section Tokens

variable {b : UInt8} {rest : List UInt8} (hsrc : c.src = b :: rest)

include hsrc

theorem length_behind : c.advance.src.length = rest.length := by
  rw [advance_src, hsrc, List.tail_cons]

theorem length_lexChar : (lexChar c).2.src.length ≤ rest.length := by
  have hfirst := length_behind hsrc
  have hsecond := length_advance c.advance
  have hthird := length_advance c.advance.advance
  refine Nat.le_trans (length_advanceIf _ _) ?_
  by_cases h : c.advance.peekChar = 0x5C
  · rw [if_pos h]
    show c.advance.advance.advance.src.length ≤ rest.length
    omega
  · rw [if_neg h]
    show c.advance.advance.src.length ≤ rest.length
    omega

theorem length_lexNumber (hb : isdigit b = true) : (lexNumber c).2.src.length ≤ rest.length := by
  simp only [lexNumber, hsrc]
  split
  · next r h =>
      rw [List.cons.injEq] at h
      rw [h.2, length_cons]
      exact Nat.le_succ_of_le (length_lexHex r 0)
  · next r h =>
      rw [List.cons.injEq] at h
      rw [h.2, length_cons]
      exact Nat.le_succ_of_le (length_lexHex r 0)
  · rw [lexDecimal, if_pos hb]
    exact length_lexDecimal rest _

theorem length_lexWord (hb : isword b = true) : (lexWord c).2.src.length ≤ rest.length := by
  simp only [lexWord, hsrc, dropWhile_cons_of_pos hb]
  exact length_dropWhile_le _ _

theorem length_lexString : (lexString c).2.src.length ≤ rest.length := by
  refine Nat.le_trans (length_advanceIf _ _) ?_
  rw [← length_behind hsrc]
  exact length_lexStringBody _ _

end Tokens

/-! ### Tokens -/

namespace Lexer

variable {l : Lexer}

/-- A token takes a byte, as long as there is one. -/
theorem length_next (h : l.cur.src ≠ []) : l.next.cur.src.length < l.cur.src.length := by
  have hskip : l.cur.skipWs.src.length ≤ l.cur.src.length := length_skipLoop _ _
  have hpos : 0 < l.cur.src.length := length_pos_iff.mpr h
  simp only [next]
  split
  · next hsrc =>
      show l.cur.skipWs.src.length < l.cur.src.length
      rw [hsrc]
      exact hpos
  · next b rest hsrc =>
      rw [hsrc, length_cons] at hskip
      by_cases hquote : b = 0x27
      · rw [if_pos hquote]
        exact Nat.lt_of_le_of_lt (length_lexChar hsrc) hskip
      rw [if_neg hquote]
      by_cases hdigit : isdigit b = true
      · rw [if_pos hdigit]
        exact Nat.lt_of_le_of_lt (length_lexNumber hsrc hdigit) hskip
      rw [if_neg hdigit]
      by_cases hword : (isalpha b || b == 0x5F) = true
      · rw [if_pos hword]
        have hb : isword b = true := by
          rw [isword, isalnum, Bool.or_assoc, Bool.or_left_comm, hword, Bool.or_true]
        exact Nat.lt_of_le_of_lt (length_lexWord hsrc hb) hskip
      rw [if_neg hword]
      by_cases hstring : b = 0x22
      · rw [if_pos hstring]
        exact Nat.lt_of_le_of_lt (length_lexString hsrc) hskip
      rw [if_neg hstring]
      have hbehind := length_behind hsrc
      split
      · next r hop =>
          have hle := length_lexOp hop
          show r.2.src.length < l.cur.src.length
          omega
      · show l.cur.skipWs.advance.src.length < l.cur.src.length
        omega

/-- At the end the lexer stays there. -/
theorem next_end (h : l.cur.src = []) : l.next.tok = .eof ∧ l.next.cur.src = [] := by
  have hskip : l.cur.skipWs.src = [] := by
    rw [Cursor.skipWs, h]
    exact h
  simp only [next]
  split
  · exact ⟨rfl, hskip⟩
  · next b rest hsrc =>
      rw [hskip] at hsrc
      cases hsrc

/-- What is left to read: two for each byte, and one for the token. -/
def weight (l : Lexer) : Nat := 2 * l.cur.src.length + if l.tok = .eof then 0 else 1

/-- How many tokens are left at most, if a byte that starts no token is the
    end. -/
def left (l : Lexer) : Nat := l.cur.src.length + if l.tok = .eof then 0 else 1

theorem weight_pos (h : l.tok ≠ .eof) : 0 < l.weight := by
  rw [weight, if_neg h]
  omega

/-- Every token that is consumed leaves less, except at the end. -/
theorem weight_next (l : Lexer) : l.next.weight < l.weight ∨ l.weight = 0 ∧ l.next.weight = 0 := by
  by_cases h : l.cur.src = []
  · have hend := next_end h
    have hnext : l.next.weight = 0 := by rw [weight, hend.1, hend.2]; rfl
    rcases Nat.eq_zero_or_pos l.weight with hz | hpos
    · exact Or.inr ⟨hz, hnext⟩
    · exact Or.inl (by omega)
  · have hlen := length_next h
    refine Or.inl ?_
    simp only [weight]
    split_ifs <;> omega

theorem weight_next_lt (l : Lexer) :
    l.next.weight ≤ l.weight ∧ (0 < l.weight → l.next.weight < l.weight) := by
  rcases weight_next l with h | h <;> omega

theorem left_next (l : Lexer) :
    l.next.left ≤ l.left ∧ (l.tok ≠ .eof → l.next.left < l.left) := by
  by_cases h : l.cur.src = []
  · have hend := next_end h
    have hnext : l.next.left = 0 := by rw [left, hend.1, hend.2]; rfl
    refine ⟨by omega, fun htok => ?_⟩
    rw [hnext, left, if_neg htok]
    omega
  · have hlen := length_next h
    simp only [left]
    refine ⟨by split_ifs <;> omega, fun htok => ?_⟩
    split_ifs <;> omega

/-- The flag for errors does not matter. -/
theorem measure_expect (t : Tok) (l : Lexer) :
    ∃ l' : Lexer, l.expect t = l'.next ∧ l'.weight = l.weight ∧ l'.left = l.left := by
  refine ⟨_, rfl, ?_⟩
  by_cases h : l.tok = t
  · rw [if_pos h]
    exact ⟨rfl, rfl⟩
  · rw [if_neg h]
    exact ⟨rfl, rfl⟩

theorem weight_expect (t : Tok) (l : Lexer) :
    (l.expect t).weight ≤ l.weight ∧ (0 < l.weight → (l.expect t).weight < l.weight) := by
  rcases measure_expect t l with ⟨l', hexp, hw, -⟩
  rw [hexp, ← hw]
  exact weight_next_lt l'

theorem left_expect (t : Tok) (l : Lexer) : (l.expect t).left ≤ l.left := by
  rcases measure_expect t l with ⟨l', hexp, -, hl⟩
  rw [hexp, ← hl]
  exact (left_next l').1

end Lexer

/-! ### The state of the parser -/

/-- The text has been read on, if at all, and errors are kept. -/
def Moves (s s' : Compiler) : Prop :=
  s'.lex.weight ≤ s.lex.weight ∧ s'.lex.left ≤ s.lex.left ∧
    (s.hadError = true → s'.hadError = true)

/-- Something has been consumed. -/
def Past (s s' : Compiler) : Prop := Moves s s' ∧ s'.lex.weight < s.lex.weight

theorem Moves.refl (s : Compiler) : Moves s s := ⟨Nat.le_refl _, Nat.le_refl _, fun h => h⟩

theorem moves_of_eq {s' : Compiler} (hlex : s'.lex = s.lex) (herr : s'.errors = s.errors) :
    Moves s s' := by
  rw [Moves, Compiler.hadError, Compiler.hadError, hlex, herr]
  exact Moves.refl s

theorem Moves.trans (h1 : Moves s t) (h2 : Moves t u) : Moves s u :=
  ⟨Nat.le_trans h2.1 h1.1, Nat.le_trans h2.2.1 h1.2.1, fun h => h2.2.2 (h1.2.2 h)⟩

theorem Past.trans (h1 : Past s t) (h2 : Moves t u) : Past s u :=
  ⟨h1.1.trans h2, Nat.lt_of_le_of_lt h2.1 h1.2⟩

theorem moves_next (s : Compiler) : Moves s s.next :=
  ⟨(Lexer.weight_next_lt s.lex).1, (Lexer.left_next s.lex).1, fun h => h⟩

theorem moves_expect (t : Tok) (s : Compiler) : Moves s (s.expect t) :=
  ⟨(Lexer.weight_expect t s.lex).1, Lexer.left_expect t s.lex, fun h => h⟩

theorem moves_skip (t : Tok) (s : Compiler) : Moves s (s.skip t) := by
  rw [Compiler.skip]
  split_ifs
  · exact moves_next s
  · exact Moves.refl s

theorem hadError_rcError (msg : String) (s : Compiler) : (s.rcError msg).hadError = true := by
  simp [Compiler.rcError, Compiler.hadError]

theorem moves_rcError (msg : String) (s : Compiler) : Moves s (s.rcError msg) :=
  ⟨Nat.le_refl _, Nat.le_refl _, fun _ => hadError_rcError msg s⟩

/-- Consuming a token that is there. -/
theorem past_next (h : s.tok ≠ .eof) : Past s s.next :=
  ⟨moves_next s, (Lexer.weight_next_lt s.lex).2 (Lexer.weight_pos h)⟩

theorem past_tok {k : Tok} (h : s.tok = k) (hk : k ≠ .eof) : Past s s.next :=
  past_next (h.trans_ne hk)

theorem Moves.past (h1 : Moves s t) (h2 : Past t u) : Past s u :=
  ⟨h1.trans h2.1, Nat.lt_of_lt_of_le h2.2 h1.1⟩

/-- `expect` consumes something if there was anything before. -/
theorem past_expect (t : Tok) (hm : Moves s u) (h : 0 < s.lex.weight) : Past s (u.expect t) := by
  refine ⟨hm.trans (moves_expect t u), ?_⟩
  have hle := hm.1
  have hlt := Lexer.weight_expect t u.lex
  show (u.lex.expect t).weight < s.lex.weight
  omega

theorem left_lt_of_next (h : s.tok ≠ .eof) (ht : Moves s.next t) : t.lex.left < s.lex.left :=
  Nat.lt_of_le_of_lt ht.2.1 ((Lexer.left_next s.lex).2 h)

/-! ### What only emits code and keeps tables -/

attribute [local irreducible] Emitter.bytes Emitter.byte Emitter.dword Emitter.patchDword

theorem moves_asm (f : Emitter → Emitter) (s : Compiler) : Moves s (s.asm f) :=
  moves_of_eq rfl rfl

theorem moves_hole (f : Emitter → Emitter × Nat) (s : Compiler) : Moves s (s.hole f).1 :=
  moves_of_eq rfl rfl

theorem moves_sym (f : Symbols → Symbols) (s : Compiler) : Moves s (s.sym f) := moves_of_eq rfl rfl

/-! The same from anywhere behind `s`. -/

theorem Moves.next (h : Moves s t) : Moves s t.next := h.trans (moves_next t)

theorem Moves.expect (h : Moves s t) (k : Tok) : Moves s (t.expect k) := h.trans (moves_expect k t)

theorem Moves.rcError {msg : String} (h : Moves s t) : Moves s (t.rcError msg) :=
  h.trans (moves_rcError msg t)

theorem Moves.asm {f : Emitter → Emitter} (h : Moves s t) : Moves s (t.asm f) :=
  h.trans (moves_asm f t)

theorem Moves.sym {f : Symbols → Symbols} (h : Moves s t) : Moves s (t.sym f) :=
  h.trans (moves_sym f t)

theorem Past.next (h : Past s t) : Past s t.next := h.trans (moves_next t)

theorem Past.expect (h : Past s t) (k : Tok) : Past s (t.expect k) := h.trans (moves_expect k t)

theorem Past.rcError {msg : String} (h : Past s t) : Past s (t.rcError msg) :=
  h.trans (moves_rcError msg t)

theorem Past.asm {f : Emitter → Emitter} (h : Past s t) : Past s (t.asm f) :=
  h.trans (moves_asm f t)

theorem Past.sym {f : Symbols → Symbols} (h : Past s t) : Past s (t.sym f) :=
  h.trans (moves_sym f t)

theorem moves_setScale (n : Nat) (s : Compiler) : Moves s (s.setScale n) := moves_of_eq rfl rfl

theorem moves_takeSlot (size : BitVec 32) (s : Compiler) : Moves s (takeSlot size s) :=
  moves_of_eq rfl rfl

theorem moves_noStruct (s : Compiler) : Moves s s.noStruct := moves_of_eq rfl rfl

theorem moves_addFixup (name : List UInt8) (p : Nat) (s : Compiler) :
    Moves s (s.addFixup name p) := by
  rw [Compiler.addFixup]
  split_ifs
  · exact Moves.refl s
  · exact moves_rcError _ s

theorem moves_addString (text : List UInt8) (p : Nat) (s : Compiler) :
    Moves s (s.addString text p) := by
  rw [Compiler.addString]
  split_ifs
  · exact Moves.refl s
  · exact moves_rcError _ s

theorem moves_loopPush (p : Nat) (s : Compiler) : Moves s (s.loopPush p) := by
  rw [Compiler.loopPush]
  split_ifs
  · exact Moves.refl s
  · exact Moves.refl s

theorem moves_patchAll (ps : List Nat) (s : Compiler) : Moves s (s.patchAll ps) := by
  induction ps generalizing s with
  | nil => exact Moves.refl s
  | cons p ps ih => exact ih (s.asm (Emitter.patchHere p))

theorem moves_loopPop (s : Compiler) : Moves s s.loopPop := by
  unfold Compiler.loopPop
  split
  · exact Moves.refl s
  · exact moves_patchAll _ { s with loops := _ }

theorem moves_loopAddBreak (p : Nat) (s : Compiler) : Moves s (s.loopAddBreak p) := by
  unfold Compiler.loopAddBreak
  split
  · exact moves_rcError _ s
  · split_ifs
    · exact Moves.refl s
    · exact Moves.refl s

theorem past_literal (v : BitVec 32) (h : s.tok ≠ .eof) : Past s (literal v s) :=
  (((moves_asm _ s).trans (moves_setScale 0 _)).trans (moves_noStruct _)).past (past_next h)

/-- A string literal; only its table may be full. -/
theorem past_string (text : List UInt8) (p : Nat) (h : s.tok ≠ .eof) :
    Past s ((s.addString text p).setScale 1).noStruct.next := by
  have hlex : (s.addString text p).lex = s.lex := by
    rw [Compiler.addString]
    split_ifs
    · rfl
    · rfl
  have htok : ((s.addString text p).setScale 1).noStruct.tok = s.tok := congrArg Lexer.tok hlex
  have hmoves := (moves_addString text p s).trans (moves_setScale 1 _)
  exact (hmoves.trans (moves_noStruct _)).past (past_next (by rw [htok]; exact h))

theorem moves_emitCall (name : List UInt8) (sym : Option Symbol) (s : Compiler) :
    Moves s (emitCall name sym s) := by
  have hlater : Moves s (((s.asm (Emitter.byte 0xE8)).asm (Emitter.dword 0)).addFixup name
      (s.asm (Emitter.byte 0xE8)).pos) := moves_addFixup name _ ((s.asm _).asm _)
  cases sym with
  | none => exact hlater
  | some v =>
    simp only [emitCall]
    cases v.kind with
    | kernFunc => exact Moves.refl s
    | func => exact Moves.refl s
    | _ => exact hlater

theorem moves_finishCall (name : List UInt8) (sym : Option Symbol) (argc : Nat) (s : Compiler) :
    Moves s (finishCall name sym argc s) := by
  have hif : Moves s (if argc > 1 then s.asm (emitReverseArgs argc) else s) := by
    split_ifs
    · exact Moves.refl s
    · exact Moves.refl s
  have hcall := (hif.expect .rparen).trans (moves_emitCall name sym _)
  simp only [finishCall]
  split_ifs at hcall ⊢ <;> exact hcall

theorem moves_emitLoadSym (v : Symbol) (s : Compiler) : Moves s (emitLoadSym v s) := by
  unfold emitLoadSym
  cases v.kind <;> split_ifs <;> exact Moves.refl s

theorem moves_emitStoreSym (v : Symbol) (s : Compiler) : Moves s (emitStoreSym v s) := by
  unfold emitStoreSym
  cases v.kind <;> exact Moves.refl s

theorem moves_emitAddr (kind : SymKind) (offset addr : BitVec 32) (s : Compiler) :
    Moves s (emitAddr kind offset addr s) := by
  unfold emitAddr
  cases kind <;> exact Moves.refl s

theorem moves_addField (f : StructField) (s : Compiler) : Moves s (addField f s) := by
  unfold addField
  split_ifs <;> exact Moves.refl s

/-! ### Types and constants -/

theorem left_lt_turns (s : Compiler) : s.lex.left < s.turns := by
  rw [Lexer.left, Compiler.turns]
  split_ifs <;> omega

theorem moves_structName (name : List UInt8) (s : Compiler) :
    Moves s { s with parsedStructName := name } :=
  moves_of_eq rfl rfl

/-- The nesting of a type is bounded by the tokens left. -/
theorem parseTypeIn_moves (h : s.lex.left < n) :
    Agree (fun r => Moves s r.2) (parseTypeIn n s) (parseTypeIn n s) := by
  induction n generalizing s with
  | zero => exact absurd h (Nat.not_lt_zero _)
  | succ k ih =>
    rw [parseTypeIn]
    generalize hs0 : ({ s with parsedStructName := [], isArray := false, arrayCount := 0 } :
      Compiler) = s0
    have hclear : Moves s s0 := by
      rw [← hs0]
      exact moves_of_eq rfl rfl
    have hleft : s0.lex.left < k + 1 := Nat.lt_of_le_of_lt hclear.2.1 h
    -- The type behind a token that has been consumed.
    have hinner : s0.tok ≠ .eof → ∀ {t : Compiler}, Moves s0.next t →
        Agree (fun r => Moves s r.2) (parseTypeIn k t) (parseTypeIn k t) := by
      intro htok t ht
      have hlt := left_lt_of_next htok ht
      refine (ih (s := t) (by omega)).mono (fun r hr => ?_)
      exact hclear.trans (((moves_next s0).trans ht).trans hr)
    have hnext : Moves s s0.next := hclear.next
    simp only []
    split
    · next htok =>
        have hmut : Moves s0.next
            (if s0.next.tok = .mut ∨ s0.next.tok = .const then s0.next.next else s0.next) := by
          split_ifs
          · exact moves_next s0.next
          · exact Moves.refl s0.next
        exact (hinner (htok.trans_ne Tok.noConfusion) hmut).bind
          (fun r hr => Agree.some hr)
    · next htok =>
        exact (hinner (htok.trans_ne Tok.noConfusion) (moves_skip .mut s0.next)).bind
          (fun r hr => Agree.some hr)
    · next htok =>
        refine (hinner (htok.trans_ne Tok.noConfusion) (Moves.refl s0.next)).bind
          (fun r hr => ?_)
        have hsemi := hr.expect .semi
        split
        · next v hnum =>
            have hsize := (hsemi.trans (moves_of_eq rfl rfl)).next
            have hclose := hsize.expect .rbracket
            exact Agree.some (hclose.trans (moves_of_eq rfl rfl))
        · exact Agree.some hsemi.rcError
    · exact Agree.some hnext
    · exact Agree.some hnext
    · exact Agree.some hnext
    · exact Agree.some hnext
    · exact Agree.some hnext
    · exact Agree.some hnext
    · exact Agree.some hnext
    · split
      · exact Agree.some (hnext.trans (moves_structName _ _)).next
      · exact Agree.some hnext.rcError
    · split
      · exact Agree.some hnext
      · split
        · exact Agree.some (hclear.trans (moves_structName _ _)).next
        · exact Agree.some hclear
    · exact Agree.some hclear

theorem parseType_moves (s : Compiler) :
    Agree (fun r => Moves s r.2) (parseType s) (parseType s) :=
  parseTypeIn_moves (left_lt_turns s)

/-- Every constant of an enum takes a token. -/
theorem enumLoop_moves (value : BitVec 32) (h : s.lex.left < n) :
    Agree (Moves s) (enumLoop n value s) (enumLoop n value s) := by
  induction n generalizing s value with
  | zero => exact absurd h (Nat.not_lt_zero _)
  | succ k ih =>
    rw [enumLoop]
    split_ifs with hdone
    · exact Agree.some (Moves.refl s)
    split
    · next name htok =>
        have hident : s.tok ≠ .eof := by
          rw [htok]
          exact Tok.noConfusion
        -- Another turn, from anywhere behind the name.
        have hadd : ∀ (value : BitVec 32) {t : Compiler}, Moves s.next t →
            Agree (Moves s)
              (enumLoop k (value + 1)
                ((t.sym (Symbols.add (cut name) .const .int false 0 value)).skip .comma))
              (enumLoop k (value + 1)
                ((t.sym (Symbols.add (cut name) .const .int false 0 value)).skip .comma)) := by
          intro value t ht
          have hskip := (ht.trans (moves_of_eq rfl rfl)).trans
            (moves_skip .comma (t.sym (Symbols.add (cut name) .const .int false 0 value)))
          have hlt := left_lt_of_next hident hskip
          refine (ih (value + 1) (by omega)).mono (fun u hu => ?_)
          exact ((moves_next s).trans hskip).trans hu
        simp only []
        split_ifs
        · split
          · exact hadd _ (moves_next s.next).next
          · have hassign := (moves_next s).next
            exact Agree.some hassign.rcError
        · exact hadd value (Moves.refl s.next)
    · exact Agree.some (moves_rcError _ s)

/-- A declaration of an enum moves on behind its keyword. -/
theorem parseEnum_moves (s : Compiler) : Agree (Moves s.next) (parseEnum s) (parseEnum s) := by
  have hname : Moves s.next (if s.next.identName.isSome then s.next.next else s.next) := by
    split_ifs
    · exact moves_next s.next
    · exact Moves.refl s.next
  have hbrace := hname.expect .lbrace
  refine ((enumLoop_moves 0 (left_lt_turns _)).mono (fun u hu => hbrace.trans hu)).map ?_
  exact fun u hu => hu.expect .rbrace

end SysRust.Rc
