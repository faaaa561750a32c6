import SysRust.Theory.Rc.Lex
import SysRust.Theory.Rc.Progress

/-!
# Lexing Undoes Printing

A program text is put together from the texts of its tokens, with white space
and comments between them. `Printed` says which texts stand for a list of
tokens, and the lexer finds this list again.

There are many texts for one list. `Spelled` leaves open how a string is
escaped and how many zeros stand in front of a number, and `Gap` is any mixture
of white space and comments. All that is asked for is that a token is followed
by white space, since otherwise the next token could lengthen it: a word by a
letter, an operator by another byte, a division sign by the comment behind it.
With that, what follows a token never matters to the routine that reads it, and
each kind of token can be looked at alone.

## Main definitions

* `Gap`, `Separator`: White space and comments; those that start with white
  space.
* `OPERATORS`, `ESCAPES`: The texts of operators and punctuation, and of
  escaped bytes.
* `Spelled`: The texts of a token.
* `Follows`, `Printed`: The texts of a list of tokens.
* `Printable`: The tokens that have a text.
* `lexAll`: The tokens that repeated calls of `next` find.

## Theorems

* `skipWs_gap`: White space and comments are skipped.
* `lexWord_word`, `lexString_quoted`, `lexOp_operator`: Each kind of token.
* `next_spelled`: `next` finds the token.
* `exists_spelled`: Every printable token has a text.
* `lex_printed`: The lexer finds the tokens that were printed, and then the end.
* `lex_onto`: Every list of printable tokens is found for some text.
-/

namespace SysRust.Rc

open Cursor List

/-! ### White space and comments -/

/-- White space, block comments and line comments, each closed. -/
inductive Gap : List UInt8 → Prop where
  | nil : Gap []
  | space {c : UInt8} {gap : List UInt8} (hc : isspace c = true) (h : Gap gap) : Gap (c :: gap)
  | block {body gap : List UInt8} (hbody : ¬ [0x2A, 0x2F] <:+: body) (h : Gap gap) :
      Gap (0x2F :: 0x2A :: (body ++ 0x2A :: 0x2F :: gap))
  | line {body gap : List UInt8} (hbody : (0x0A : UInt8) ∉ body) (h : Gap gap) :
      Gap (0x2F :: 0x2F :: (body ++ 0x0A :: gap))

/-- What stands between two tokens. -/
structure Separator (sep : List UInt8) : Prop where
  gap : Gap sep
  space : ∃ c rest, sep = c :: rest ∧ isspace c = true

/-- What may follow a token: nothing, or white space. -/
def After (rest : List UInt8) : Prop := ∀ c ∈ rest.head?, isspace c = true

theorem Separator.after {sep : List UInt8} (h : Separator sep) (rest : List UInt8) :
    After (sep ++ rest) := by
  obtain ⟨c, sep', rfl, hc⟩ := h.space
  intro b hb
  rw [← Option.some.inj hb]
  exact hc

theorem after_nil : After [] := fun _ hc => nomatch hc

variable {body rest gap w s text src : List UInt8} {c : Cursor} {n : Nat} {b : UInt8} {t : Tok}
  {l : Lexer} {ts : List Tok}

/-- The comment is skipped up to its end. -/
theorem skipBlock_body (hbody : ¬ [0x2A, 0x2F] <:+: body)
    (hsrc : c.src = body ++ 0x2A :: 0x2F :: rest) (hn : body.length < n) :
    (skipBlock n c).src = rest := by
  induction body generalizing n c with
  | nil =>
    obtain ⟨n, rfl⟩ : ∃ k, n = k + 1 := ⟨n - 1, by omega⟩
    unfold skipBlock
    split
    · next h =>
        rw [h] at hsrc
        cases hsrc
    · rw [advance_src, advance_src, hsrc]
      rfl
    · next h => exact absurd hsrc (h rest)
  | cons b body ih =>
    obtain ⟨n, rfl⟩ : ∃ k, n = k + 1 := ⟨n - 1, by omega⟩
    unfold skipBlock
    split
    · next h =>
        rw [h] at hsrc
        cases hsrc
    · next x h =>
        -- The end would begin in the body or with the star of the real one.
        rw [h, cons_append, List.cons.injEq] at hsrc
        cases body with
        | nil => exact absurd (List.cons.inj hsrc.2).1 (by decide)
        | cons b' body =>
          refine absurd ⟨[], body, ?_⟩ hbody
          rw [← hsrc.1, ← (List.cons.inj hsrc.2).1]
          rfl
    · refine ih (fun hin => hbody (hin.trans (suffix_cons b body).isInfix)) ?_
        (Nat.lt_of_succ_lt_succ hn)
      rw [advance_src, hsrc]
      rfl

theorem skipLine_cons (hsrc : c.src = b :: rest) :
    skipLine (n + 1) c = if b = 0x0A then c else skipLine n c.advance := by
  rw [skipLine, hsrc]

/-- The line is skipped up to its newline. -/
theorem skipLine_body (hbody : (0x0A : UInt8) ∉ body) (hsrc : c.src = body ++ 0x0A :: rest)
    (hn : body.length < n) : (skipLine n c).src = 0x0A :: rest := by
  induction body generalizing n c with
  | nil =>
    obtain ⟨n, rfl⟩ : ∃ k, n = k + 1 := ⟨n - 1, by omega⟩
    rw [skipLine_cons hsrc, if_pos rfl]
    exact hsrc
  | cons b body ih =>
    obtain ⟨n, rfl⟩ : ∃ k, n = k + 1 := ⟨n - 1, by omega⟩
    rw [mem_cons, not_or] at hbody
    rw [skipLine_cons hsrc, if_neg (Ne.symm hbody.1)]
    refine ih hbody.2 ?_ (Nat.lt_of_succ_lt_succ hn)
    rw [advance_src, hsrc]
    rfl

/-- In front of a token the loop leaves at once. -/
theorem skipLoop_atToken (h : AtToken c.src) : skipLoop n c = c := by
  cases n with
  | zero => rfl
  | succ n =>
    obtain ⟨hspace, hblock, hline⟩ := h
    unfold skipLoop
    split
    · next x hsrc =>
        rw [hsrc] at hblock
        exact absurd ⟨x, rfl⟩ hblock
    · next x hsrc =>
        rw [hsrc] at hline
        exact absurd ⟨x, rfl⟩ hline
    · next b x _ _ hsrc =>
        have hb : isspace b = false := hspace b (by rw [hsrc]; rfl)
        rw [hb]
        rfl
    · rfl

/-- One turn of the loop takes one byte of white space. -/
theorem skipLoop_space (hsrc : c.src = b :: rest) (hb : isspace b = true) :
    skipLoop (n + 1) c = skipLoop n c.advance := by
  have hslash : b ≠ 0x2F := by
    rintro rfl
    exact absurd hb (by decide)
  rw [skipLoop.eq_def]
  simp only
  split
  · next x h => exact absurd (List.cons.inj (hsrc.symm.trans h)).1 hslash
  · next x h => exact absurd (List.cons.inj (hsrc.symm.trans h)).1 hslash
  · next b' x _ _ h =>
      rw [← (List.cons.inj (hsrc.symm.trans h)).1, if_pos hb]
  · next h => exact nomatch hsrc.symm.trans h

theorem skipLoop_gap (hgap : Gap gap) (hrest : AtToken rest) (hsrc : c.src = gap ++ rest)
    (hn : c.src.length ≤ n) : (skipLoop n c).src = rest := by
  -- One piece of the gap after the other; each takes one turn, a line comment
  -- two.
  induction hgap generalizing n c with
  | nil =>
    have hat : AtToken c.src := by
      rw [hsrc]
      exact hrest
    rw [skipLoop_atToken hat, hsrc]
    rfl
  | @space b gap hb _ ih =>
    have hlen := congrArg List.length hsrc
    simp only [cons_append, length_cons] at hlen
    obtain ⟨n, rfl⟩ : ∃ k, n = k + 1 := ⟨n - 1, by omega⟩
    rw [skipLoop_space hsrc hb]
    refine ih ?_ ?_
    · rw [advance_src, hsrc]
      rfl
    · rw [length_advance]
      omega
  | @block body gap hbody _ ih =>
    have hlen := congrArg List.length hsrc
    simp only [cons_append, length_cons, append_assoc, length_append] at hlen
    obtain ⟨n, rfl⟩ : ∃ k, n = k + 1 := ⟨n - 1, by omega⟩
    unfold skipLoop
    split
    · have hskip : (skipBlock c.src.length c.advance.advance).src = gap ++ rest := by
        refine skipBlock_body hbody ?_ (by omega)
        rw [advance_src, advance_src, hsrc]
        simp only [cons_append, List.tail_cons, append_assoc]
      refine ih hskip ?_
      rw [hskip, length_append]
      omega
    · next x h =>
        rw [h] at hsrc
        exact absurd (List.cons.inj (List.cons.inj hsrc).2).1 (by decide)
    · next b x hno _ h =>
        rw [h, cons_append, List.cons.injEq] at hsrc
        exact absurd hsrc.2 (hno _ hsrc.1)
    · next h =>
        rw [h] at hsrc
        cases hsrc
  | @line body gap hbody _ ih =>
    have hlen := congrArg List.length hsrc
    simp only [cons_append, length_cons, append_assoc, length_append] at hlen
    obtain ⟨n, rfl⟩ : ∃ k, n = k + 1 + 1 := ⟨n - 2, by omega⟩
    unfold skipLoop
    split
    · next x h =>
        rw [h] at hsrc
        exact absurd (List.cons.inj (List.cons.inj hsrc).2).1 (by decide)
    · have hskip : (skipLine c.src.length c.advance.advance).src = 0x0A :: (gap ++ rest) := by
        refine skipLine_body hbody ?_ (by omega)
        rw [advance_src, advance_src, hsrc]
        simp only [cons_append, List.tail_cons, append_assoc]
      rw [skipLoop_space hskip (by decide)]
      refine ih ?_ ?_
      · rw [advance_src, hskip]
        rfl
      · rw [length_advance, hskip, length_cons, length_append]
        omega
    · next b x _ hno h =>
        rw [h, cons_append, List.cons.injEq] at hsrc
        exact absurd hsrc.2 (hno _ hsrc.1)
    · next h =>
        rw [h] at hsrc
        cases hsrc

/-- White space and comments are skipped. -/
theorem skipWs_gap (hgap : Gap gap) (hrest : AtToken rest) (hsrc : c.src = gap ++ rest) :
    c.skipWs.src = rest :=
  skipLoop_gap hgap hrest hsrc (Nat.le_refl _)

/-! ### The texts of tokens -/

/-- Operators and punctuation. -/
def OPERATORS : List (List UInt8 × Tok) :=
  [(ascii "+", .plus), (ascii "-", .minus), (ascii "*", .star), (ascii "/", .slash),
    (ascii "%", .percent), (ascii "&", .amp), (ascii "|", .pipe), (ascii "^", .caret),
    (ascii "!", .bang), (ascii "=", .assign), (ascii "<", .lt), (ascii ">", .gt),
    (ascii "==", .eq), (ascii "!=", .neq), (ascii "<=", .lte), (ascii ">=", .gte),
    (ascii "&&", .and), (ascii "||", .or), (ascii "<<", .lshift), (ascii ">>", .rshift),
    (ascii "+=", .plusEq), (ascii "-=", .minusEq), (ascii "*=", .starEq), (ascii "/=", .slashEq),
    (ascii "(", .lparen), (ascii ")", .rparen), (ascii "\x7b", .lbrace), (ascii "\x7d", .rbrace),
    (ascii "[", .lbracket), (ascii "]", .rbracket), (ascii ";", .semi), (ascii ",", .comma),
    (ascii ":", .colon), (ascii ".", .dot), (ascii "->", .arrow), (ascii "=>", .fatArrow),
    (ascii "..", .doubleDot)]

/-- The letter behind a backslash, and what it stands for in a string. -/
def ESCAPES : List (UInt8 × UInt8) :=
  [(0x6E, 0x0A), (0x74, 0x09), (0x5C, 0x5C), (0x22, 0x22)]

/-- The texts of a string between its quotes. -/
inductive Quoted : List UInt8 → List UInt8 → Prop where
  | nil : Quoted [] []
  | plain {c : UInt8} {s text : List UInt8} (hquote : c ≠ 0x22) (hescape : c ≠ 0x5C) (hc : c ≠ 0)
      (h : Quoted s text) : Quoted (c :: s) (c :: text)
  | escape {e c : UInt8} {s text : List UInt8} (he : (e, c) ∈ ESCAPES) (h : Quoted s text) :
      Quoted (c :: s) (0x5C :: e :: text)

/-- An identifier: letters, digits and underscores, no digit in front, not too
    long, and no keyword. -/
structure Identifier (w : List UInt8) : Prop where
  nonempty : w ≠ []
  length : w.length ≤ 127
  word : ∀ c ∈ w, isword c = true
  first : ∀ c ∈ w.head?, isdigit c = false
  fresh : ∀ k ∈ KEYWORDS, k.1 ≠ w

/-- The texts of a token. -/
inductive Spelled : Tok → List UInt8 → Prop where
  | keyword {w : List UInt8} {t : Tok} (h : (w, t) ∈ KEYWORDS) : Spelled t w
  | ident {w : List UInt8} (h : Identifier w) : Spelled (.ident w) w
  | num {d : UInt8} {ds : List UInt8} (h : ∀ c ∈ d :: ds, isdigit c = true)
      (hlt : digits 10 (fun c => c.toNat - 0x30) 0 (d :: ds) < 2 ^ 31) :
      Spelled (.num (BitVec.ofNat 32 (digits 10 (fun c => c.toNat - 0x30) 0 (d :: ds)))) (d :: ds)
  | str {s text : List UInt8} (hlen : s.length ≤ 127) (h : Quoted s text) :
      Spelled (.str s) (0x22 :: (text ++ [0x22]))
  | operator {w : List UInt8} {t : Tok} (h : (w, t) ∈ OPERATORS) : Spelled t w

/-! ### Every token has a text -/

/-- The tokens that can be printed: all but the end, with the bounds on numbers,
    strings and identifiers. -/
def Printable : Tok → Prop
  | .eof => False
  | .num v => v.toNat < 2 ^ 31
  | .str s => s.length ≤ 127 ∧ (0 : UInt8) ∉ s
  | .ident w => Identifier w
  | _ => True

/-- The decimal digits of a number. -/
def decimal (n : Nat) : List UInt8 :=
  if n < 10 then [UInt8.ofNat (n + 0x30)] else decimal (n / 10) ++ [UInt8.ofNat (n % 10 + 0x30)]
termination_by n
decreasing_by omega

theorem isdigit_ofNat : ∀ d < 10, isdigit (UInt8.ofNat (d + 0x30)) = true ∧
    (UInt8.ofNat (d + 0x30)).toNat - 0x30 = d := by decide

theorem decimal_spec (n : Nat) : (∀ c ∈ decimal n, isdigit c = true) ∧ decimal n ≠ [] ∧
    digits 10 (fun c => c.toNat - 0x30) 0 (decimal n) = n := by
  induction n using Nat.strongRecOn with
  | ind n ih =>
    rw [decimal]
    by_cases hn : n < 10
    · rw [if_pos hn]
      obtain ⟨hdigit, hval⟩ := isdigit_ofNat n hn
      refine ⟨fun c hc => mem_singleton.mp hc ▸ hdigit, cons_ne_nil _ _, ?_⟩
      rw [digits, foldl_cons, hval, Nat.zero_mul, Nat.zero_add]
      rfl
    · rw [if_neg hn]
      obtain ⟨hall, _, hvalue⟩ := ih (n / 10) (by omega)
      obtain ⟨hdigit, hval⟩ := isdigit_ofNat (n % 10) (Nat.mod_lt _ (by decide))
      refine ⟨fun c hc => ?_, append_ne_nil_of_right_ne_nil _ (cons_ne_nil _ _), ?_⟩
      · rcases mem_append.mp hc with hin | hin
        · exact hall c hin
        · exact mem_singleton.mp hin ▸ hdigit
      · rw [digits] at hvalue
        rw [digits, foldl_append, hvalue, foldl_cons, hval, foldl_nil]
        omega

theorem exists_quoted {s : List UInt8} (hs : (0 : UInt8) ∉ s) : ∃ text, Quoted s text := by
  induction s with
  | nil => exact ⟨[], Quoted.nil⟩
  | cons c s ih =>
    rw [mem_cons, not_or] at hs
    obtain ⟨text, htext⟩ := ih hs.2
    by_cases hquote : c = 0x22
    · exact ⟨_, Quoted.escape (show (0x22, c) ∈ ESCAPES by rw [hquote]; decide) htext⟩
    · by_cases hescape : c = 0x5C
      · exact ⟨_, Quoted.escape (show (0x5C, c) ∈ ESCAPES by rw [hescape]; decide) htext⟩
      · exact ⟨_, Quoted.plain hquote hescape (Ne.symm hs.1) htext⟩

/-- The tokens with one fixed text. -/
def fixed : Tok → Bool
  | .eof | .num _ | .str _ | .ident _ => false
  | _ => true

/-- The tables have all of them. -/
theorem mem_tables (h : fixed t = true) : ∃ w, (w, t) ∈ KEYWORDS ++ OPERATORS := by
  have hany : (KEYWORDS ++ OPERATORS).any (fun k => decide (k.2 = t)) = true := by
    cases t with
    | eof | num | str | ident => cases h
    | _ => rfl
  obtain ⟨k, hk, heq⟩ := any_eq_true.mp hany
  exact ⟨k.1, of_decide_eq_true heq ▸ hk⟩

/-- Every printable token has a text. -/
theorem exists_spelled (h : Printable t) : ∃ text, Spelled t text := by
  by_cases hfixed : fixed t = true
  · obtain ⟨w, hw⟩ := mem_tables hfixed
    rcases mem_append.mp hw with hin | hin
    · exact ⟨w, Spelled.keyword hin⟩
    · exact ⟨w, Spelled.operator hin⟩
  · cases t with
    | eof => exact absurd h id
    | num v =>
      obtain ⟨hall, hne, hvalue⟩ := decimal_spec v.toNat
      obtain ⟨d, ds, hds⟩ := exists_cons_of_ne_nil hne
      rw [hds] at hall hvalue
      have hspelled := Spelled.num hall (by rw [hvalue]; exact h)
      rw [hvalue, BitVec.ofNat_toNat, BitVec.setWidth_eq] at hspelled
      exact ⟨_, hspelled⟩
    | str s =>
      obtain ⟨text, htext⟩ := exists_quoted h.2
      exact ⟨_, Spelled.str h.1 htext⟩
    | ident w => exact ⟨w, Spelled.ident h⟩
    | _ => exact absurd rfl hfixed

/-! ### Words -/

theorem isword_of_isspace {c : UInt8} (h : isspace c = true) : isword c = false := by
  simp only [isspace, Bool.or_eq_true, beq_iff_eq] at h
  rcases h with ((((rfl | rfl) | rfl) | rfl) | rfl) | rfl <;> decide

/-- A word in front of something that does not go on with it. -/
theorem lexWord_word (hw : ∀ c ∈ w, isword c = true) (hlen : w.length ≤ 127) (hrest : After rest)
    (hsrc : c.src = w ++ rest) : (lexWord c).1 = wordTok w ∧ (lexWord c).2.src = rest := by
  have hstop : rest.takeWhile isword = [] ∧ rest.dropWhile isword = rest := by
    cases rest with
    | nil => exact ⟨rfl, rfl⟩
    | cons b rest =>
      have hb : ¬ isword b = true := by
        rw [isword_of_isspace (hrest b rfl)]
        decide
      exact ⟨takeWhile_cons_of_neg hb, dropWhile_cons_of_neg hb⟩
  simp only [lexWord, hsrc]
  rw [takeWhile_append_of_pos hw, dropWhile_append_of_pos hw, hstop.1, hstop.2,
    append_nil, take_of_length_le hlen]
  exact ⟨rfl, rfl⟩

theorem wordTok_keyword : ∀ k ∈ KEYWORDS, wordTok k.1 = k.2 := by decide +kernel

/-- Keywords are words. -/
theorem keyword_word : ∀ k ∈ KEYWORDS, k.1 ≠ [] ∧ k.1.length ≤ 127 ∧
    (∀ c ∈ k.1, isword c = true) ∧ ∀ c ∈ k.1.head?, isdigit c = false := by decide +kernel

theorem wordTok_ident (h : Identifier w) : wordTok w = .ident w := by
  have hnone : KEYWORDS.find? (fun k => k.1 == w) = none := by
    refine List.find?_eq_none.mpr (fun k hk => ?_)
    rw [beq_iff_eq]
    exact h.fresh k hk
  rw [wordTok, hnone]

/-! ### Strings -/

theorem unescape_escapes : ∀ p ∈ ESCAPES, unescape 0x22 p.1 = p.2 := by
  simp only [ESCAPES, forall_mem_cons]
  exact ⟨rfl, rfl, rfl, rfl, forall_mem_nil _⟩

theorem lexStringBody_cons (hsrc : c.src = b :: rest) :
    lexStringBody (n + 1) c =
      if b = 0x22 then ([], c)
      else if b = 0x5C then (lexStringBody n c.advance.advance).map
        (List.cons (unescape 0x22 c.advance.peekChar)) id
      else (lexStringBody n c.advance).map (List.cons b) id := by
  rw [lexStringBody, hsrc]
  rfl

theorem lexStringBody_quoted (h : Quoted s text) (hsrc : c.src = text ++ 0x22 :: rest)
    (hn : text.length < n) :
    (lexStringBody n c).1 = s ∧ (lexStringBody n c).2.src = 0x22 :: rest := by
  induction h generalizing n c with
  | nil =>
    obtain ⟨n, rfl⟩ : ∃ k, n = k + 1 := ⟨n - 1, by omega⟩
    rw [lexStringBody_cons hsrc, if_pos rfl]
    exact ⟨rfl, hsrc⟩
  | @plain b s text hquote hescape _ _ ih =>
    obtain ⟨n, rfl⟩ : ∃ k, n = k + 1 := ⟨n - 1, by omega⟩
    rw [lexStringBody_cons hsrc, if_neg hquote, if_neg hescape]
    have hstep := ih (n := n) (c := c.advance) (by rw [advance_src, hsrc]; rfl)
      (Nat.lt_of_succ_lt_succ hn)
    exact ⟨congrArg (List.cons b) hstep.1, hstep.2⟩
  | @escape e b s text he _ ih =>
    obtain ⟨n, rfl⟩ : ∃ k, n = k + 1 := ⟨n - 1, by omega⟩
    have hpeek : c.advance.peekChar = e := by
      rw [peekChar, advance_src, hsrc]
      rfl
    rw [lexStringBody_cons hsrc, if_neg (by decide), if_pos rfl, hpeek, unescape_escapes _ he]
    have hstep := ih (n := n) (c := c.advance.advance)
      (by rw [advance_src, advance_src, hsrc]; rfl)
      (by simp only [length_cons] at hn; omega)
    exact ⟨congrArg (List.cons b) hstep.1, hstep.2⟩

theorem lexString_quoted (h : Quoted s text) (hlen : s.length ≤ 127)
    (hsrc : c.src = 0x22 :: (text ++ [0x22]) ++ rest) :
    (lexString c).1 = .str s ∧ (lexString c).2.src = rest := by
  have htext : c.advance.src = text ++ 0x22 :: rest := by
    rw [advance_src, hsrc]
    simp only [cons_append, List.tail_cons, append_assoc, nil_append]
  have hlong : text.length < c.src.length := by
    rw [hsrc]
    simp only [cons_append, length_cons, length_append]
    omega
  have hbody := lexStringBody_quoted h htext hlong
  have hpeek : (lexStringBody c.src.length c.advance).2.peekChar = 0x22 := by
    rw [peekChar, hbody.2]
    rfl
  simp only [lexString, hbody.1, hpeek, if_true, advance_src, hbody.2, List.tail_cons]
  exact ⟨congrArg Tok.str (take_of_length_le hlen), trivial⟩

/-! ### Operators -/

/-- An operator looks at one more byte only. -/
theorem lexOp_peek (b : UInt8) (c : Cursor) :
    lexOp b c = (lexOp b ⟨[c.peekChar], 0⟩).map
      (fun r => (r.1, if r.2.src = [] then c.advance else c)) := by
  have hnext : ∀ longer short, lexNext c longer short =
      ((lexNext ⟨[c.peekChar], 0⟩ longer short).1,
        if (lexNext ⟨[c.peekChar], 0⟩ longer short).2.src = [] then c.advance else c) := by
    intro longer short
    have hpeek : Cursor.peekChar ⟨[c.peekChar], 0⟩ = c.peekChar := rfl
    rw [lexNext, lexNext, hpeek]
    cases longer.find? (fun p => p.1 == c.peekChar) with
    | none => rfl
    | some p => rfl
  unfold lexOp
  split <;> first | exact congrArg some (hnext _ _) | rfl

/-- The lexer reads the text as the operator, with the byte `p` behind it. -/
def readsOp (w : List UInt8) (t : Tok) (p : UInt8) : Bool :=
  match w with
  | [b] => decide (lexOp b ⟨[p], 0⟩ = some (t, ⟨[p], 0⟩))
  | [b, b'] => decide (lexOp b ⟨[b'], 0⟩ = some (t, ⟨[], 0⟩))
  | _ => false

/-- At the end of the text the lexer sees a zero byte. -/
def ENDS : List UInt8 := [0, 0x20, 0x09, 0x0A, 0x0D, 0x0C, 0x0B]

theorem readsOp_operators : ∀ k ∈ OPERATORS, ∀ p ∈ ENDS, readsOp k.1 k.2 p = true := by
  decide +kernel

theorem mem_ends (h : isspace b = true) : b ∈ ENDS := by
  simp only [isspace, Bool.or_eq_true, beq_iff_eq] at h
  rcases h with ((((rfl | rfl) | rfl) | rfl) | rfl) | rfl <;> decide

theorem After.mem_ends (h : After rest) : rest.headD 0 ∈ ENDS := by
  cases rest with
  | nil => exact mem_cons_self
  | cons b rest => exact Rc.mem_ends (h b rfl)

/-- An operator, with nothing or white space behind it. -/
theorem lexOp_operator (h : (w, t) ∈ OPERATORS) (hrest : After rest) (hsrc : c.src = w ++ rest) :
    ∃ b w' r, w = b :: w' ∧ lexOp b c.advance = some r ∧ r.1 = t ∧ r.2.src = rest := by
  have hreads := readsOp_operators _ h _ hrest.mem_ends
  match w, hreads, hsrc with
  | [b], hreads, hsrc =>
    have hop := of_decide_eq_true hreads
    have htail : c.advance.src = rest := by
      rw [advance_src, hsrc]
      rfl
    rw [← htail] at hop
    refine ⟨b, [], (t, c.advance), rfl, ?_, rfl, htail⟩
    rw [lexOp_peek, peekChar, hop]
    rfl
  | [b, b'], hreads, hsrc =>
    have hop := of_decide_eq_true hreads
    have hpeek : c.advance.peekChar = b' := by
      rw [peekChar, advance_src, hsrc]
      rfl
    refine ⟨b, [b'], (t, c.advance.advance), rfl, ?_, rfl, ?_⟩
    · rw [lexOp_peek, hpeek, hop]
      rfl
    · rw [advance_src, advance_src, hsrc]
      rfl

/-- The first byte of an operator starts nothing else. -/
theorem operator_first : ∀ k ∈ OPERATORS, (∀ b ∈ k.1.head?, b ≠ 0x27 ∧ isdigit b = false ∧
    (isalpha b || b == 0x5F) = false ∧ b ≠ 0x22 ∧ isspace b = false) ∧
    k.1 ≠ [0x2F, 0x2A] ∧ k.1 ≠ [0x2F, 0x2F] ∧ (k.1.length = 1 ∨ k.1.length = 2) := by
  decide +kernel

/-! ### One token -/

theorem atToken_cons (hspace : isspace b = false) (hb : b ≠ 0x2F) : AtToken (b :: src) := by
  refine ⟨fun c hc => ?_, ?_, ?_⟩
  · rw [← Option.some.inj hc]
    exact hspace
  · rintro ⟨x, hx⟩
    exact hb (List.cons.inj hx).1.symm
  · rintro ⟨x, hx⟩
    exact hb (List.cons.inj hx).1.symm

theorem atToken_word (h : isword b = true) : AtToken (b :: src) := by
  refine atToken_cons ?_ ?_
  · by_contra hspace
    rw [isword_of_isspace (Bool.not_eq_false _ ▸ hspace)] at h
    exact absurd h (by decide)
  · rintro rfl
    exact absurd h (by decide)

/-- An operator is no comment: behind a division sign there is no star and no
    other one. -/
theorem atToken_operator (h : (w, t) ∈ OPERATORS) (hrest : After rest) : AtToken (w ++ rest) := by
  obtain ⟨hfirst, hblock, hline, hlen⟩ := operator_first _ h
  -- The two bytes of a comment would be the operator, or one of it and white
  -- space.
  have hno : ∀ x : UInt8, isspace x = false → w ≠ [0x2F, x] → ¬ [0x2F, x] <+: w ++ rest := by
    rintro x hx hw ⟨y, hy⟩
    match w, hlen, hy, hw with
    | [b], _, hy, _ =>
      have htail : x :: y = rest := (List.cons.inj hy).2
      have hspace := hrest x (by rw [← htail]; rfl)
      rw [hx] at hspace
      exact absurd hspace (by decide)
    | [b, b'], _, hy, hw =>
      refine hw ?_
      rw [← (List.cons.inj hy).1, ← (List.cons.inj (List.cons.inj hy).2).1]
  refine ⟨fun c hc => ?_, hno 0x2A (by decide) hblock, hno 0x2F (by decide) hline⟩
  cases w with
  | nil => exact hlen.elim (fun h1 => nomatch h1) (fun h2 => nomatch h2)
  | cons b w =>
    rw [← Option.some.inj hc]
    exact (hfirst b rfl).2.2.2.2

theorem isword_of_isdigit {c : UInt8} (h : isdigit c = true) : isword c = true := by
  rw [isword, isalnum, h, Bool.or_true, Bool.true_or]

/-- The lexer stops skipping at the text of a token. -/
theorem Spelled.atToken (h : Spelled t text) (hrest : After rest) : AtToken (text ++ rest) := by
  cases h with
  | keyword h =>
    obtain ⟨hne, _, hword, _⟩ := keyword_word _ h
    obtain ⟨b, w, rfl⟩ := exists_cons_of_ne_nil hne
    exact atToken_word (hword b mem_cons_self)
  | ident h =>
    obtain ⟨b, w, rfl⟩ := exists_cons_of_ne_nil h.nonempty
    exact atToken_word (h.word b mem_cons_self)
  | num h _ => exact atToken_word (isword_of_isdigit (h _ mem_cons_self))
  | str _ _ => exact atToken_cons (by decide) (by decide)
  | operator h => exact atToken_operator h hrest

/-- What a token leaves behind. -/
structure Finds (l : Lexer) (t : Tok) (rest : List UInt8) : Prop where
  tok : l.next.tok = t
  src : l.next.cur.src = rest
  error : l.next.error = l.error

/-- A word is read as the token of the keyword table or as an identifier. -/
theorem finds_word (hne : w ≠ []) (hlen : w.length ≤ 127) (hword : ∀ c ∈ w, isword c = true)
    (hfirst : ∀ c ∈ w.head?, isdigit c = false) (hsrc : l.cur.skipWs.src = w ++ rest)
    (hrest : After rest) : Finds l (wordTok w) rest := by
  obtain ⟨b, w, rfl⟩ := exists_cons_of_ne_nil hne
  have hb : (isalpha b || b == 0x5F) = true := by
    have hw := hword b mem_cons_self
    rw [isword, isalnum, hfirst b rfl, Bool.or_false] at hw
    exact hw
  obtain ⟨htok, hcur⟩ := lexWord_word hword hlen hrest hsrc
  have hnext := next_word hsrc hb
  exact ⟨by rw [hnext]; exact htok, by rw [hnext]; exact hcur, by rw [hnext]⟩

/-- `next` finds the token whose text is behind white space and comments. -/
theorem next_spelled (h : Spelled t text) (hsrc : l.cur.skipWs.src = text ++ rest)
    (hrest : After rest) : Finds l t rest := by
  cases h with
  | keyword h =>
    obtain ⟨hne, hlen, hword, hfirst⟩ := keyword_word _ h
    rw [show t = wordTok text from (wordTok_keyword _ h).symm]
    exact finds_word hne hlen hword hfirst hsrc hrest
  | ident h =>
    rw [← wordTok_ident h]
    exact finds_word h.nonempty h.length h.word h.first hsrc hrest
  | num h _ =>
    have hstop : ∀ c ∈ rest.head?, isword c = false :=
      fun c hc => isword_of_isspace (hrest c hc)
    obtain ⟨htok, hcur⟩ := next_literal (Literal.decimal h) hsrc hstop
    have hnext := next_number hsrc (h _ mem_cons_self)
    exact ⟨htok, hcur, by rw [hnext]⟩
  | str hlen h =>
    obtain ⟨htok, hcur⟩ := lexString_quoted h hlen hsrc
    have hnext := next_string hsrc rfl
    exact ⟨by rw [hnext]; exact htok, by rw [hnext]; exact hcur, by rw [hnext]⟩
  | operator h =>
    obtain ⟨b, w, r, rfl, hop, htok, hcur⟩ := lexOp_operator h hrest hsrc
    obtain ⟨hquote, hdigit, hword, hstring, _⟩ := (operator_first _ h).1 b rfl
    have hnext := next_op hsrc hquote hdigit hword hstring hop
    exact ⟨by rw [hnext]; exact htok, by rw [hnext]; exact hcur, by rw [hnext]⟩

/-- With nothing left there is the end. -/
theorem next_eof (hsrc : l.cur.skipWs.src = []) : Finds l .eof [] := by
  have hnext : l.next = { l with
      cur := l.cur.skipWs, tok := .eof, tokLine := l.cur.skipWs.line } := by
    simp only [Lexer.next, hsrc]
  exact ⟨by rw [hnext], by rw [hnext]; exact hsrc, by rw [hnext]⟩

/-! ### The texts of programs -/

/-- The texts that may stand behind a token and hold these tokens. -/
inductive Follows : List Tok → List UInt8 → Prop where
  | nil : Follows [] []
  | trail {sep : List UInt8} (h : Separator sep) : Follows [] sep
  | cons {sep text rest : List UInt8} {t : Tok} {ts : List Tok} (hsep : Separator sep)
      (ht : Spelled t text) (h : Follows ts rest) : Follows (t :: ts) (sep ++ (text ++ rest))

/-- The texts of a list of tokens: their texts with separators between them,
    and with or without one before the first and behind the last. -/
inductive Printed : List Tok → List UInt8 → Prop where
  | bare {text rest : List UInt8} {t : Tok} {ts : List Tok} (ht : Spelled t text)
      (h : Follows ts rest) : Printed (t :: ts) (text ++ rest)
  | led {text : List UInt8} {ts : List Tok} (h : Follows ts text) : Printed ts text

theorem Follows.after (h : Follows ts src) : After src := by
  cases h with
  | nil => exact after_nil
  | trail h =>
    have hafter := h.after []
    rw [append_nil] at hafter
    exact hafter
  | cons hsep _ _ => exact hsep.after _

/-- The tokens that `n` calls of `next` find, and the error flag behind
    them. -/
def lexAll : Nat → Lexer → List Tok × Bool
  | 0, l => ([], l.error)
  | n + 1, l => (l.next.tok :: (lexAll n l.next).1, (lexAll n l.next).2)

/-- One call of `next`, and the calls behind it. -/
theorem lexAll_finds (h : Finds l t rest)
    (hrest : ∀ l' : Lexer, l'.cur.src = rest → lexAll n l' = (ts, l'.error)) :
    lexAll (n + 1) l = (t :: ts, l.error) := by
  rw [lexAll, hrest l.next h.src, h.tok, h.error]

/-- Behind a token, the lexer finds what follows and then the end. -/
theorem lexAll_follows (h : Follows ts src) (l : Lexer) (hsrc : l.cur.src = src) :
    lexAll (ts.length + 1) l = (ts ++ [.eof], l.error) := by
  -- Along the tokens; the state in between is only the text that is left.
  induction h generalizing l with
  | nil =>
    have hskip : l.cur.skipWs.src = [] := skipWs_gap Gap.nil atToken_nil hsrc
    exact lexAll_finds (next_eof hskip) (fun _ _ => rfl)
  | trail h =>
    have hskip : l.cur.skipWs.src = [] :=
      skipWs_gap h.gap atToken_nil (hsrc.trans (append_nil _).symm)
    exact lexAll_finds (next_eof hskip) (fun _ _ => rfl)
  | cons hsep ht h ih =>
    have hskip := skipWs_gap hsep.gap (ht.atToken h.after) hsrc
    exact lexAll_finds (next_spelled ht hskip h.after) ih

/-- For every list of tokens and every text of it: repeated calls of `next`
    find the tokens and then the end, and no error is reported. -/
theorem lex_printed (ts : List Tok) (text : List UInt8) (h : Printed ts text) :
    lexAll (ts.length + 1) (Lexer.init text) = (ts ++ [.eof], false) := by
  cases h with
  | bare ht h =>
    have hskip := skipWs_gap Gap.nil (ht.atToken h.after)
      (show (Lexer.init _).cur.src = [] ++ (_ ++ _) from rfl)
    exact lexAll_finds (next_spelled ht hskip h.after) (lexAll_follows h)
  | led h => exact lexAll_follows h _ rfl

/-- Every list of printable tokens has a text that is read as this list. -/
theorem lex_onto (ts : List Tok) (h : ∀ t ∈ ts, Printable t) :
    ∃ text, lexAll (ts.length + 1) (Lexer.init text) = (ts ++ [.eof], false) := by
  have hspace : Separator [0x20] := ⟨.space rfl .nil, 0x20, [], rfl, rfl⟩
  have htext : ∃ text, Follows ts text := by
    induction ts with
    | nil => exact ⟨[], .nil⟩
    | cons t ts ih =>
      rw [forall_mem_cons] at h
      obtain ⟨word, hword⟩ := exists_spelled h.1
      obtain ⟨rest, hrest⟩ := ih h.2
      exact ⟨_, .cons hspace hword hrest⟩
  obtain ⟨text, htext⟩ := htext
  exact ⟨text, lexAll_follows htext _ rfl⟩

/-- An operator and a number. -/
theorem lex_onto_sum : ∃ text, lexAll 3 (Lexer.init text) = ([.plus, .num 7, .eof], false) :=
  lex_onto [.plus, .num 7] (by simp [Printable])

/-- `fn f /`, a comment, a string with an escaped newline and a number. -/
theorem lex_printed_line :
    lexAll 6 (Lexer.init (ascii "fn f / /*/ **/ \"\\n\" 07\n//end\n")) =
      ([.fn, .ident (ascii "f"), .slash, .str [0x0A], .num 7, .eof], false) := by
  have hspace : Separator [0x20] := ⟨.space rfl .nil, 0x20, [], rfl, rfl⟩
  have hcomment : Separator (ascii " /*/ **/ ") :=
    ⟨.space rfl (.block (by decide : ¬ [0x2A, 0x2F] <:+: ascii "/ *") (.space rfl .nil)),
      0x20, _, rfl, rfl⟩
  have hend : Separator (ascii "\n//end\n") :=
    ⟨.space rfl (.line (by decide : (0x0A : UInt8) ∉ ascii "end") .nil), 0x0A, _, rfl, rfl⟩
  have hident : Identifier (ascii "f") :=
    ⟨by decide, by decide, by decide +kernel, by decide +kernel, by decide +kernel⟩
  have hfn : Spelled .fn (ascii "fn") := .keyword (by decide)
  have hslash : Spelled .slash (ascii "/") := .operator (by decide)
  have hstr : Spelled (.str [0x0A]) (ascii "\"\\n\"") :=
    .str (by decide) (.escape (show (0x6E, 0x0A) ∈ ESCAPES by decide) .nil)
  have hnum : Spelled (.num 7) (ascii "07") :=
    Spelled.num (show ∀ c ∈ [0x30, 0x37], isdigit c = true by decide +kernel) (by decide)
  exact lex_printed [.fn, .ident (ascii "f"), .slash, .str [0x0A], .num 7] _
    (.bare hfn (.cons hspace (.ident hident) (.cons hspace hslash (.cons hcomment hstr
      (.cons hspace hnum (.trail hend))))))

end SysRust.Rc
