import SysRust.Theory.Rc.Grammar
import SysRust.Theory.Rc.Lex
import SysRust.Theory.Rc.Operators

/-!
# Compiled Expressions

The parser emits the code of the expression it reads. There are two ways
through it. An expression that starts with an identifier is parsed by
`parse_expr` itself, which leaves the operators behind it to `parse_binops`;
everything else goes down the chain from `parse_or` to `parse_primary`. Both
are proved against the same grammar, by induction on the number of tokens.

The chain groups operators as the grammar does. `parse_binops` calls
`parse_bitor`, `parse_and_expr` and `parse_or` for the right operand of `|`,
`&&` and `||`, and so groups these to the right; since they are associative,
the code computes the same value.

## Main definitions

* `Input`: The parser in front of the tokens of an expression.
* `CompilesAs`: A call emits code with the value of an expression.

## Theorems

* `level_of_spine`: A level of the chain.
* `binops_of_items`: `parse_binops` behind an identifier.
* `compiles_expr`: `parse_expr` emits the code of an expression.
* `compiled_expr_runs`: The emitted code computes the value.
-/

namespace SysRust.Rc

open X86 List

attribute [local irreducible] Emitter.bytes Emitter.byte Emitter.dword Emitter.patchDword

/-- In front of the tokens `ts`, whose identifiers are variables in the frame. -/
structure Input (s : Compiler) (ts : List Tok) (l' : Lexer) : Prop where
  reads : Reads s.lex ts l'
  errors : s.errors = []
  known : ∀ name, Tok.ident name ∈ ts → Known s.syms name

/-- The call emits code with the value of `e`. -/
def CompilesAs (c : Call) (s : Compiler) (l' : Lexer) (e : Expr) : Prop :=
  ∃ e', Same e e' ∧ Compiles c s l' (gen (slotOf s.syms) e')

/-- The tokens are parsed as an operand of a level. -/
def LevelAt (l : Nat) (ts : List Tok) (e : Expr) : Prop :=
  ∀ s l', Input s ts l' → Stops l l'.tok → CompilesAs (levelCall l) s l' e

/-- The tokens are parsed as an expression. -/
def ExprAt (ts : List Tok) (e : Expr) : Prop :=
  ∀ s l', Input s ts l' → Stops 0 l'.tok → CompilesAs .expr s l' e

variable {l' : Lexer} {s : Compiler} {ts us : List Tok} {t : Tok} {name : List UInt8} {e e' : Expr}
  {items : List Item} {op : BinOp} {l : Nat}

/-- What is left of the input once the first part has been parsed. -/
theorem Input.rest {s' : Compiler} {is : List Instr} (h : Input s (ts ++ us) l')
    (hem : Emitted s s' is) (hlex : Reads s'.lex us l') :
    Input s' us l' where
  reads := hlex
  errors := hem.errors.trans h.errors
  known := fun name hn => by
    rw [hem.syms]
    exact h.known name (mem_append_right ts hn)

theorem Input.first (h : Input s (ts ++ us) l') : ∃ m, Input s ts m ∧ Reads m us l' := by
  rcases reads_append.mp h.reads with ⟨m, h1, h2⟩
  exact ⟨m, ⟨h1, h.errors, fun name hn => h.known name (mem_append_left us hn)⟩, h2⟩

/-- Everything behind the first token. -/
theorem Input.tail {s0 : Compiler} (h : Input s (t :: ts) l') (ht : s0.tables = s.tables)
    (hlex : s0.lex = s.lex.next) : Input s0 ts l' := by
  have hsyms : s0.tables.syms = s.tables.syms := congrArg _ ht
  have herr : s0.tables.errors = s.tables.errors := congrArg _ ht
  refine ⟨by rw [hlex]; exact h.reads.2, (show s0.errors = s.errors from herr).trans h.errors,
    fun name hn => ?_⟩
  rw [show s0.syms = s.syms from hsyms]
  exact h.known name (mem_cons_of_mem t hn)

/-! ### Operands -/

/-- A literal. -/
theorem compiles_literal {v : BitVec 32} (hin : Input s [t] l') (hstop : Stops UNARY l'.tok)
    (ht : t.isPrefix = false) (hp : ∀ self, parsePrimary self s = some (literal v s)) :
    CompilesAs (levelCall UNARY) s l' (.lit v) := by
  have hlex : s.lex.next = l' := hin.reads.2
  refine ⟨.lit v, Same.refl _, literal v s, ?_, ⟨rfl, (emits_movRegImm v).grows s.emit⟩, hlex, rfl⟩
  refine parses_unary_of_primary hin.errors (by rw [hin.reads.1]; exact ht)
    (Parses.intro 0 (fun n _ => hp (parse n))) hin.errors ?_
  rw [show (literal v s).lex = l' from hlex]
  exact hstop.1

/-- A variable. -/
theorem compiles_variable (hin : Input s [.ident name] l') (hstop : Stops UNARY l'.tok) :
    CompilesAs (levelCall UNARY) s l' (.var name) := by
  have hlex : s.next.lex = l' := hin.reads.2
  have htok : s.tok = .ident name := hin.reads.1
  rcases hin.known name mem_cons_self with ⟨v, hv, hk, -, hp, hst⟩
  rcases emitted_loadSym (s := s.next) hv hk hp hst with ⟨hem, hlex1, hscale⟩
  have hparen : s.next.tok ≠ .lparen := fun h' => by
    have hplain := hstop.1
    rw [← hlex, show s.next.lex.tok = .lparen from h'] at hplain
    exact absurd hplain (by decide)
  refine ⟨.var name, Same.refl _, emitLoadSym v s.next, ?_, ⟨hem.tables, hem.grows⟩,
    hlex1.trans hlex, hscale⟩
  refine parses_unary_of_primary hin.errors (by rw [hin.reads.1]; rfl)
    (Parses.intro 0 (fun n _ => ?_)) (hem.errors.trans hin.errors) ?_
  · simp only [body, parsePrimary, hadError_false hin.errors, Bool.false_eq_true, if_false, htok,
      if_neg hparen, hv]
  · rw [hlex1, hlex]
    exact hstop.1

/-- A prefix operator. -/
theorem compiles_prefix {f : Emitter → Emitter} {i : Instr} {g : Expr → Expr}
    (hin : Input s (t :: ts) l') (hstop : Stops UNARY l'.tok) (h : LevelAt UNARY ts e)
    (hf : Emits f [i]) (hg : ∀ slot e, gen slot (g e) = gen slot e ++ [i])
    (hsame : ∀ {e e'}, Same e e' → Same (g e) (g e'))
    (hp : ∀ self, parseUnary self s = (self .unary s.next).map (fun s => s.asm f)) :
    CompilesAs (levelCall UNARY) s l' (g e) := by
  rcases h s.next l' (hin.tail rfl rfl) hstop with ⟨e', he', s', ⟨N, hN⟩, hem, hlex, hscale⟩
  refine ⟨g e', hsame he', s'.asm f, Parses.intro N (fun n hn => ?_), ?_, hlex, hscale⟩
  · exact (hp (parse n)).trans (congrArg (Option.map _) (hN n hn))
  · rw [hg]
    exact Emitted.trans ⟨hem.tables, hem.grows⟩ (emitted_asm hf s')

/-- An expression in parentheses. -/
theorem compiles_paren (hin : Input s (.lparen :: ts ++ [.rparen]) l') (hstop : Stops UNARY l'.tok)
    (h : ExprAt ts e) : CompilesAs (levelCall UNARY) s l' e := by
  have htok : s.tok = .lparen := hin.reads.1
  have htail : Input s.next (ts ++ [.rparen]) l' := hin.tail rfl rfl
  rcases htail.first with ⟨m, hfirst, hm⟩
  have hclose : m.tok = .rparen := hm.1
  have hstop0 : Stops 0 m.tok := by
    rw [hclose]
    exact ⟨rfl, fun op hop => by cases op <;> exact absurd hop (by decide)⟩
  rcases h s.next m hfirst hstop0 with ⟨e', he', s', ⟨N, hN⟩, hem, hlex, hscale⟩
  have hexp : s'.expect .rparen = s'.next := by
    simp only [Compiler.expect, Lexer.expect, Compiler.next, hlex, hclose, if_true]
  have hlex' : s'.next.lex = l' := by
    show s'.lex.next = l'
    rw [hlex]
    exact hm.2
  refine ⟨e', he', s'.next, ?_, ⟨hem.tables, hem.grows⟩, hlex', hscale⟩
  refine parses_unary_of_primary hin.errors (by rw [hin.reads.1]; rfl)
    (Parses.intro N (fun n hn => ?_)) (hem.errors.trans hin.errors) ?_
  · simp only [body, parsePrimary, hadError_false hin.errors, Bool.false_eq_true, if_false, htok,
      hN n hn, Option.map_some, hexp]
  · rw [hlex']
    exact hstop.1

/-- An operand of the operators that bind most. -/
theorem level_of_unary (hd : Derives UNARY ts e)
    (hparen : ∀ us e', us.length < ts.length → Derives 0 us e' → ExprAt us e')
    (hunary : ∀ us e', us.length < ts.length → Derives UNARY us e' → LevelAt UNARY us e') :
    LevelAt UNARY ts e := by
  intro s l' hin hstop
  generalize hl : UNARY = l at hd
  cases hd with
  | num | true_ | false_ =>
    refine compiles_literal hin hstop rfl (fun self => ?_)
    simp only [parsePrimary, hadError_false hin.errors, Bool.false_eq_true, if_false,
      show s.tok = _ from hin.reads.1]
  | ident name => exact compiles_variable hin hstop
  | @paren us _ h =>
    refine compiles_paren hin hstop (hparen us e ?_ h)
    simp only [length_cons, length_append]
    omega
  | @minus us e' h =>
    have hlen : us.length < (Tok.minus :: us).length := Nat.lt_succ_self _
    refine compiles_prefix hin hstop (hunary us e' hlen h) emits_neg (fun _ _ => rfl)
      Same.neg (fun self => ?_)
    simp only [parseUnary, hadError_false hin.errors, Bool.false_eq_true, if_false,
      show s.tok = .minus from hin.reads.1]
  | @bang us e' h =>
    have hlen : us.length < (Tok.bang :: us).length := Nat.lt_succ_self _
    refine compiles_prefix hin hstop (hunary us e' hlen h) emits_not (fun _ _ => rfl)
      Same.not (fun self => ?_)
    simp only [parseUnary, hadError_false hin.errors, Bool.false_eq_true, if_false,
      show s.tok = .bang from hin.reads.1]
  | up h => exact absurd (level_le_of_derives h) (by omega)
  | bin op => exact absurd (level_lt op) (by omega)

/-! ### The chain -/

/-- The code of some items. -/
def genItems (slot : List UInt8 → BitVec 32) (items : List Item) : List Instr :=
  items.flatMap (fun it => genBin it.op (gen slot it.rhs))

theorem gen_spineExpr (slot : List UInt8 → BitVec 32) (a : Expr) (items : List Item) :
    gen slot (spineExpr a items) = gen slot a ++ genItems slot items := by
  induction items generalizing a with
  | nil => exact (append_nil _).symm
  | cons it items ih =>
    refine (ih (.bin it.op a it.rhs)).trans ?_
    simp only [gen, genItems, flatMap_cons, append_assoc]

/-- The items stand for the same operations behind any operand. -/
def SameItems (items items' : List Item) : Prop :=
  ∀ a, Same (spineExpr a items) (spineExpr a items')

/-- The call goes on with the items. -/
def TailCompiles (c : Call) (s : Compiler) (l' : Lexer) (items : List Item) : Prop :=
  ∃ items', SameItems items items' ∧ Compiles c s l' (genItems (slotOf s.syms) items')

/-- The token in front of some items ends an operand above them. -/
theorem stops_front {m : Lexer} {k : Nat} (h : Reads m (spineToks items) l') (hl' : Stops k l'.tok)
    (hitems : ∀ it ∈ items, it.level < k) : Stops k m.tok := by
  cases items with
  | nil =>
    rw [show m = l' from h]
    exact hl'
  | cons it items =>
    rw [show m.tok = it.op.tok from h.1]
    exact stops_tok (hitems it mem_cons_self)

/-- An operator whose right operand is parsed by `rhs`, and then the rest. -/
theorem tail_cons {c rhs : Call} (items : List Item) (hs : s.ptrScale = 0)
    (hmul : op = .add ∨ op = .sub → rhs = .mul)
    (hstep : ∀ n, body (parse n) c s = (op.parse (parse n) rhs s).bind (parse n c))
    (hin : Input s (op.tok :: ts ++ spineToks items) l')
    (hrhs : ∀ s0 m, Input s0 ts m → Reads m (spineToks items) l' → CompilesAs rhs s0 m e)
    (hrest : ∀ s', Input s' (spineToks items) l' → s'.ptrScale = 0 → TailCompiles c s' l' items) :
    ∃ e' items', Same e e' ∧ SameItems items items' ∧
      Compiles c s l' (genItems (slotOf s.syms) (⟨op, [], e'⟩ :: items')) := by
  rcases hin.first with ⟨m, hfirst, hm⟩
  have hop := opCompiles (m := m) (P := fun is => ∃ e', Same e e' ∧ is = gen (slotOf s.syms) e')
    hs hmul (fun s0 ht hlex => by
      rcases hrhs s0 m (hfirst.tail ht hlex) hm with ⟨e', he', h⟩
      have hsyms : s0.tables.syms = s.tables.syms := congrArg _ ht
      rw [show s0.syms = s.syms from hsyms] at h
      exact ⟨_, ⟨e', he', rfl⟩, h⟩)
  rcases hop with ⟨_, ⟨e', he', rfl⟩, N, s1, hN, hem, hlex, hscale⟩
  have hin1 : Input s1 (spineToks items) l' := hin.rest hem (by rw [hlex]; exact hm)
  rcases hrest s1 hin1 hscale with ⟨items', hsame, s2, ⟨M, hM⟩, hem2, hlex2, hscale2⟩
  refine ⟨e', items', he', hsame, s2, Parses.intro (N + M) (fun n hn => ?_), ?_, hlex2, hscale2⟩
  · rw [hstep n, hN n (by omega), Option.bind_some]
    exact hM n (by omega)
  · rw [hem.syms] at hem2
    exact hem.trans hem2

theorem sameItems_cons {it : Item} {items' : List Item} (h : Same it.rhs e')
    (hs : SameItems items items') :
    SameItems (it :: items) (⟨it.op, [], e'⟩ :: items') := fun a =>
  (Same.spine ((Same.refl a).bin it.op h) items).trans (hs (.bin it.op a e'))

theorem levelCall_mul (h : op = .add ∨ op = .sub) : levelCall (op.level + 1) = .mul := by
  rcases h with rfl | rfl <;> rfl

/-- The loop of a level over its operators. -/
theorem loop_of_items (hl : l < UNARY) (hlevel : ∀ it ∈ items, it.level = l)
    (hrhs : ∀ it ∈ items, LevelAt (l + 1) it.toks it.rhs) (hin : Input s (spineToks items) l')
    (hstop : Stops l l'.tok) (hs : s.ptrScale = 0) : TailCompiles (loopCall l) s l' items := by
  induction items generalizing s with
  | nil =>
    have hlex : s.lex = l' := hin.reads
    refine ⟨[], fun a => Same.refl a, s, Parses.intro 0 (fun n _ => ?_), Emitted.refl s, hlex, hs⟩
    refine body_loop_stop (parse n) hl (Stops.notOf ?_ (Nat.le_refl l))
    rw [hlex]
    exact hstop
  | cons it items ih =>
    have hit : it.op.level = l := hlevel it mem_cons_self
    have hlt : ∀ x ∈ items, x.level < l + 1 := fun x hx => by
      rw [hlevel x (mem_cons_of_mem it hx)]
      exact Nat.lt_succ_self l
    have hstep (n : Nat) : body (parse n) (loopCall l) s =
        (it.op.parse (parse n) (levelCall (l + 1)) s).bind (parse n (loopCall l)) := by
      rw [← hit]
      exact body_loop (parse n) it.op hin.reads.1
    rcases tail_cons _ hs (fun h => by rw [← hit]; exact levelCall_mul h) hstep hin
      (fun s0 m h0 hm => hrhs it mem_cons_self s0 m h0
        (stops_front hm (hstop.mono (Nat.le_succ l)) hlt))
      (fun s' h' hs' => ih (fun x hx => hlevel x (mem_cons_of_mem it hx))
        (fun x hx => hrhs x (mem_cons_of_mem it hx)) h' hs') with
      ⟨e', items', he', hsame, hc⟩
    exact ⟨_, sameItems_cons he' hsame, hc⟩

/-- Falling items are those from a level on and then those below it. -/
theorem split_at_level (hf : Falling items) (l : Nat) :
    ∃ hi lo, items = hi ++ lo ∧ (∀ it ∈ hi, l ≤ it.level) ∧ (∀ it ∈ lo, it.level < l) := by
  induction items with
  | nil => exact ⟨[], [], rfl, forall_mem_nil _, forall_mem_nil _⟩
  | cons it items ih =>
    rcases pairwise_cons.mp hf with ⟨hit, hf'⟩
    by_cases hl : l ≤ it.level
    · rcases ih hf' with ⟨hi, lo, rfl, hhi, hlo⟩
      exact ⟨it :: hi, lo, rfl, forall_mem_cons.mpr ⟨hl, hhi⟩, hlo⟩
    · have hlt : it.level < l := Nat.lt_of_not_le hl
      refine ⟨[], it :: items, rfl, forall_mem_nil _, forall_mem_cons.mpr ⟨hlt, ?_⟩⟩
      exact fun x hx => Nat.lt_of_le_of_lt (hit x hx) hlt

/-- Those above level `l` and then those of level `l`. -/
theorem split_falling (hf : Falling items) (ha : ∀ it ∈ items, l ≤ it.level) :
    ∃ hi lo, items = hi ++ lo ∧ (∀ it ∈ hi, l + 1 ≤ it.level) ∧ (∀ it ∈ lo, it.level = l) := by
  rcases split_at_level hf (l + 1) with ⟨hi, lo, rfl, hhi, hlo⟩
  refine ⟨hi, lo, rfl, hhi, fun x hx => ?_⟩
  exact Nat.le_antisymm (Nat.le_of_lt_succ (hlo x hx)) (ha x (mem_append_right hi hx))

/-- A level of the chain: the items above it are parsed with the operand, the
    others by the loop. -/
theorem level_of_spine {hts : List Tok} {head : Expr} (hhead : LevelAt UNARY hts head) (k : Nat) :
    ∀ l, l + k = UNARY → ∀ items, Falling items → (∀ it ∈ items, l ≤ it.level) →
      (∀ it ∈ items, LevelAt (it.level + 1) it.toks it.rhs) →
      LevelAt l (hts ++ spineToks items) (spineExpr head items) := by
  induction k with
  | zero =>
    intro l hl items _ ha _
    rw [show l = UNARY from hl] at ha ⊢
    cases items with
    | nil =>
      rw [show spineToks [] = [] from rfl, append_nil]
      exact hhead
    | cons it items =>
      have h1 := ha it mem_cons_self
      have h2 := level_lt it.op
      simp only [Item.level] at h1
      omega
  | succ k ih =>
    intro l hl items hf ha hrhs s l' hin hstop
    rcases split_falling hf ha with ⟨hi, lo, rfl, hhi, hlo⟩
    have hl10 : l < 10 := by
      simp only [UNARY] at hl
      omega
    have hhi' := ih (l + 1) (by omega) hi (pairwise_append.mp hf).1 hhi
      (fun it hit => hrhs it (mem_append_left lo hit))
    have hlo' : ∀ it ∈ lo, LevelAt (l + 1) it.toks it.rhs := fun it hit => by
      have h := hrhs it (mem_append_right hi hit)
      rwa [hlo it hit] at h
    rw [spineToks_append, ← append_assoc] at hin
    rcases hin.first with ⟨m, hfirst, hm⟩
    have hstopm : Stops (l + 1) m.tok :=
      stops_front hm (hstop.mono (Nat.le_succ l)) (fun it hit => by rw [hlo it hit]; omega)
    rcases hhi' s m hfirst hstopm with ⟨e1, he1, s1, ⟨N, hN⟩, hem1, hlex1, hscale1⟩
    have hin1 : Input s1 (spineToks lo) l' := hin.rest hem1 (by rw [hlex1]; exact hm)
    rcases loop_of_items hl10 hlo hlo' hin1 hstop hscale1 with
      ⟨items', hsame, s2, ⟨M, hM⟩, hem2, hlex2, hscale2⟩
    refine ⟨spineExpr e1 items', ?_, s2, Parses.intro (N + M) (fun n hn => ?_), ?_, hlex2,
      hscale2⟩
    · rw [spineExpr_append]
      exact (he1.spine lo).trans (hsame e1)
    · rw [body_level (parse n) hl10 hin.errors, hN n (by omega), Option.bind_some]
      exact hM n (by omega)
    · rw [gen_spineExpr]
      rw [hem1.syms] at hem2
      exact hem1.trans hem2

/-! ### Behind an identifier -/

/-- Those of the first level and then the others. -/
theorem split_level (hf : Falling items) (hle : ∀ it ∈ items, it.level ≤ l) :
    ∃ eqs rest, items = eqs ++ rest ∧ (∀ it ∈ eqs, it.level = l) ∧ (∀ it ∈ rest, it.level < l) := by
  rcases split_at_level hf l with ⟨eqs, rest, rfl, heqs, hrest⟩
  refine ⟨eqs, rest, rfl, fun x hx => ?_, hrest⟩
  exact Nat.le_antisymm (hle x (mem_append_left rest hx)) (heqs x hx)

/-- The levels of these operators have no other operator. -/
theorem op_of_level {op' : BinOp} (hop : op.rightward = true) (h : op'.level = op.level) :
    op' = op := by
  cases op <;> simp only [BinOp.rightward, Bool.false_eq_true] at hop <;>
    cases op' <;> first | rfl | exact absurd h (by decide)

theorem binopsCall_of_not (hop : op.rightward = false) :
    binopsCall op = levelCall (op.level + 1) := by
  cases op <;> first | rfl | exact absurd hop (by decide)

theorem binopsCall_of_rightward (hop : op.rightward = true) :
    binopsCall op = levelCall op.level := by
  cases op <;> first | rfl | exact absurd hop (by decide)

/-- `parse_binops` over the items behind an identifier. -/
theorem binops_of_items {N : Nat}
    (hlev : ∀ l us e, us.length < N → Derives l us e → LevelAt l us e) (k : Nat) :
    ∀ items : List Item, items.length ≤ k → (spineToks items).length ≤ N → ItemsDerive items →
      Falling items → ∀ s l', Input s (spineToks items) l' → Stops 0 l'.tok → s.ptrScale = 0 →
      TailCompiles .binops s l' items := by
  induction k with
  | zero =>
    intro items hk _ _ _ s l' hin hstop hs
    rw [length_eq_zero_iff.mp (Nat.le_zero.mp hk)] at hin ⊢
    have hlex : s.lex = l' := hin.reads
    refine ⟨[], fun a => Same.refl a, s, Parses.intro 0 (fun n _ => ?_), Emitted.refl s, hlex, hs⟩
    exact body_binops_stop (parse n) hin.errors (by rw [hlex]; exact hstop)
  | succ k ih =>
    intro items hk hN hd hf s l' hin hstop hs
    cases items with
    | nil => exact ih [] (Nat.zero_le k) hN hd hf s l' hin hstop hs
    | cons it items =>
      rcases pairwise_cons.mp hf with ⟨hit, hf'⟩
      have hstep (n : Nat) : body (parse n) .binops s =
          (it.op.parse (parse n) (binopsCall it.op) s).bind (parse n .binops) :=
        body_binops (parse n) it.op hin.reads.1 hin.errors
      have hlen : (spineToks (it :: items)).length =
          it.toks.length + 1 + (spineToks items).length := by
        simp only [spineToks, flatMap_cons, length_append, length_cons]
      rw [hlen] at hN
      simp only [length_cons] at hk
      by_cases hop : it.op.rightward = true
      · -- All items of this level are parsed as one right operand.
        rcases split_level hf' hit with ⟨eqs, rest, rfl, heqs, hrest⟩
        have hdr : ItemsDerive rest := fun x hx =>
          hd x (mem_cons_of_mem it (mem_append_right eqs hx))
        have hde : ItemsDerive eqs := fun x hx =>
          hd x (mem_cons_of_mem it (mem_append_left rest hx))
        have hder : Derives it.op.level (it.toks ++ spineToks eqs) (spineExpr it.rhs eqs) :=
          derives_spine (.up (hd it mem_cons_self)) hde heqs
        rw [spineToks_append, length_append] at hN
        have hin' : Input s (it.op.tok :: (it.toks ++ spineToks eqs) ++ spineToks rest) l' := by
          have h := hin
          rw [show spineToks (it :: (eqs ++ rest)) =
            it.op.tok :: (it.toks ++ spineToks (eqs ++ rest)) from rfl, spineToks_append] at h
          simpa only [cons_append, append_assoc] using h
        rcases tail_cons rest hs
          (fun h => by rcases h with h | h <;> rw [h] at hop <;> exact absurd hop (by decide))
          hstep hin'
          (fun s0 m h0 hm => by
            rw [binopsCall_of_rightward hop]
            refine hlev _ _ _ ?_ hder s0 m h0
              (stops_front hm (hstop.mono (Nat.zero_le _)) hrest)
            rw [length_append]
            omega)
          (fun s' h' hs' => ih rest (by rw [length_append] at hk; omega) (by omega) hdr
            (pairwise_append.mp hf').2.1 s' l' h' hstop hs') with
          ⟨e', items', he', hsame, hc⟩
        refine ⟨_, fun a => ?_, hc⟩
        rw [show spineExpr a (it :: (eqs ++ rest)) =
          spineExpr (.bin it.op a it.rhs) (eqs ++ rest) from rfl, spineExpr_append]
        have hgroup := same_regroup hop a it.rhs
          (fun x hx => op_of_level hop (heqs x hx))
        exact ((hgroup.trans ((Same.refl a).bin it.op he')).spine rest).trans (hsame _)
      · rw [Bool.not_eq_true] at hop
        rw [binopsCall_of_not hop] at hstep
        rcases tail_cons _ hs levelCall_mul hstep hin
          (fun s0 m h0 hm => hlev _ _ _ (by omega) (hd it mem_cons_self) s0 m h0
            (stops_front hm (hstop.mono (Nat.zero_le _))
              (fun x hx => Nat.lt_succ_of_le (hit x hx))))
          (fun s' h' hs' => ih items (by omega) (by omega)
            (fun x hx => hd x (mem_cons_of_mem it hx)) hf' s' l' h' hstop hs') with
          ⟨e', items', he', hsame, hc⟩
        exact ⟨_, sameItems_cons he' hsame, hc⟩

/-- A variable at the start of an expression: nothing behind it but operators. -/
theorem parseExpr_ident (self : Self) {v : Symbol} (he : s.errors = []) (htok : s.tok = .ident name)
    (hv : s.syms.lookup (cut name) = some v) (hplain : s.next.tok.plain = true) :
    parseExpr self s = self .binops (emitLoadSym v s.next) := by
  have hne (t : Tok) (ht : t.plain = false) : s.next.tok ≠ t := fun h' => by
    rw [h', ht] at hplain
    exact Bool.false_ne_true hplain
  have hcompound : compoundOp s.next.tok = none := by
    unfold compoundOp
    split
    · exact absurd ‹_› (hne _ rfl)
    · exact absurd ‹_› (hne _ rfl)
    · exact absurd ‹_› (hne _ rfl)
    · exact absurd ‹_› (hne _ rfl)
    · rfl
  simp only [parseExpr, hadError_false he, Bool.false_eq_true, if_false, htok, hv, parseIdent]
  rw [if_neg (hne _ rfl), if_neg (fun h => hne _ rfl h.1), if_neg (fun h => hne _ rfl h.1),
    hcompound]
  rw [if_neg (hne _ rfl), if_neg (hne _ rfl)]

/-- An expression that starts with an identifier. -/
theorem expr_of_ident
    (hlev : ∀ l us e, us.length < (spineToks items).length + 1 → Derives l us e → LevelAt l us e)
    (hd : ItemsDerive items) (hf : Falling items) :
    ExprAt ([.ident name] ++ spineToks items) (spineExpr (.var name) items) := by
  intro s l' hin hstop
  have htok : s.tok = .ident name := hin.reads.1
  rcases hin.known name mem_cons_self with ⟨v, hv, hk, -, hp, hst⟩
  have hreads : Reads s.next.lex (spineToks items) l' := hin.reads.2
  have hplain : s.next.tok.plain = true :=
    (stops_front (k := UNARY) hreads (hstop.mono (Nat.zero_le _)) (fun it _ => level_lt it.op)).1
  rcases emitted_loadSym (s := s.next) hv hk hp hst with ⟨hem, hlex, hscale⟩
  have hem' : Emitted s (emitLoadSym v s.next) (gen (slotOf s.syms) (.var name)) :=
    ⟨hem.tables, hem.grows⟩
  have hin' : Input (emitLoadSym v s.next) (spineToks items) l' :=
    hin.rest hem' (by rw [hlex]; exact hreads)
  rcases binops_of_items hlev items.length items (Nat.le_refl _) (Nat.le_succ _) hd hf _ l' hin'
    hstop hscale with ⟨items', hsame, s2, ⟨N, hN⟩, hem2, hlex2, hscale2⟩
  refine ⟨spineExpr (.var name) items', hsame _, s2, Parses.intro N (fun n hn => ?_), ?_, hlex2,
    hscale2⟩
  · exact (parseExpr_ident (parse n) hin.errors htok hv hplain).trans (hN n hn)
  · rw [gen_spineExpr]
    rw [hem'.syms] at hem2
    exact hem'.trans hem2

/-- The first token of an operand that is not an identifier. -/
theorem head_of_unary (h : Derives UNARY ts e) (hr : Reads s.lex (ts ++ us) l') :
    (∃ name, ts = [.ident name] ∧ e = .var name) ∨
      (∀ self, s.errors = [] → parseExpr self s = self .or s) := by
  have hother (t : Tok) (ht : s.tok = t) (h1 : t ≠ .star) (h2 : ∀ n, t ≠ .ident n)
      (self : Self) (he : s.errors = []) : parseExpr self s = self .or s := by
    simp only [parseExpr, hadError_false he, Bool.false_eq_true, if_false]
    split
    · exact absurd (ht.symm.trans ‹_›) h1
    · exact absurd (ht.symm.trans ‹_›) (h2 _)
    · rfl
  generalize hl : UNARY = l at h
  cases h with
  | ident name => exact Or.inl ⟨name, rfl, rfl⟩
  | num | true_ | false_ | paren | minus | bang =>
    exact Or.inr (hother _ hr.1 (by simp) (by simp))
  | up h => exact absurd (level_le_of_derives h) (by omega)
  | bin op => exact absurd (level_lt op) (by omega)

/-- An expression that starts with another token goes down the chain. -/
theorem expr_of_level (hd : Derives l ts e) (hl : LevelAt 0 ts e)
    (hid : ∀ name items, ts = [.ident name] ++ spineToks items →
      e = spineExpr (.var name) items → ItemsDerive items → Falling items → ExprAt ts e) :
    ExprAt ts e := by
  rcases spine_of_derives hd with ⟨sp⟩
  intro s l' hin hstop
  have hr := hin.reads
  rw [sp.toks_eq] at hr
  rcases head_of_unary sp.derives hr with ⟨name, h1, h2⟩ | hor
  · refine hid name sp.items ?_ ?_ sp.itemsDerive sp.falling s l' hin hstop
    · rw [← h1]
      exact sp.toks_eq
    · rw [← h2]
      exact sp.expr_eq
  · rcases hl s l' hin hstop with ⟨e', he', s', ⟨N, hN⟩, hrest⟩
    exact ⟨e', he', s', Parses.intro N (fun n hn => (hor (parse n) hin.errors).trans (hN n hn)),
      hrest⟩

theorem length_toks_lt {it : Item} (h : it ∈ items) :
    it.toks.length < (spineToks items).length := by
  induction items with
  | nil => exact absurd h not_mem_nil
  | cons x items ih =>
    simp only [spineToks, flatMap_cons, length_append, length_cons]
    rcases mem_cons.mp h with rfl | h
    · omega
    · have := ih h
      simp only [spineToks] at this
      omega

/-- By induction on the number of tokens: both ways through the parser emit
    the code of what they read. -/
theorem parsed (N : Nat) :
    (∀ l ts e, ts.length < N → Derives l ts e → LevelAt l ts e) ∧
    (∀ ts e, ts.length < N → Derives 0 ts e → ExprAt ts e) := by
  induction N with
  | zero =>
    exact ⟨fun l ts e h => absurd h (Nat.not_lt_zero _),
      fun ts e h => absurd h (Nat.not_lt_zero _)⟩
  | succ N ih =>
    rcases ih with ⟨ihl, ihe⟩
    have hunary : ∀ ts e, ts.length < N + 1 → Derives UNARY ts e → LevelAt UNARY ts e :=
      fun ts e hN hd => level_of_unary hd
        (fun us e' hus hd' => ihe us e' (by omega) hd')
        (fun us e' hus hd' => ihl UNARY us e' (by omega) hd')
    have hlevel : ∀ l ts e, ts.length < N + 1 → Derives l ts e → LevelAt l ts e := by
      intro l ts e hN hd
      rcases spine_of_derives hd with ⟨sp⟩
      have hlen := congrArg List.length sp.toks_eq
      rw [length_append] at hlen
      have h := level_of_spine (hunary sp.headToks sp.head (by omega) sp.derives) (UNARY - l) l
        (by have := level_le_of_derives hd; omega) sp.items sp.falling sp.above
        (fun it hit => ihl _ _ _ (by have := length_toks_lt hit; omega) (sp.itemsDerive it hit))
      rwa [← sp.toks_eq, ← sp.expr_eq] at h
    refine ⟨hlevel, fun ts e hN hd => ?_⟩
    refine expr_of_level hd (hlevel 0 ts e hN hd) (fun name items hts he hdi hf => ?_)
    subst hts he
    refine expr_of_ident (fun l us e' hus hd' => ihl l us e' ?_ hd') hdi hf
    simp only [length_append, length_singleton] at hN
    omega

/-- `parse_expr` on the tokens of an expression. -/
theorem compiles_expr (h : Derives 0 ts e) : ExprAt ts e :=
  (parsed (ts.length + 1)).2 ts e (Nat.lt_succ_self _) h

/-! ### The emitted code -/

/-- The identifiers among the tokens are the variables of the expression. -/
theorem mem_vars_of_derives (h : Derives l ts e) (hn : Tok.ident name ∈ ts) : name ∈ e.vars := by
  induction h with
  | num | true_ | false_ => simp at hn
  | ident x =>
    rw [mem_singleton] at hn
    rw [Expr.vars, mem_singleton]
    exact Tok.ident.inj hn
  | paren h ih =>
    simp only [cons_append, mem_cons, mem_append, not_mem_nil,
      reduceCtorEq, false_or, or_false] at hn
    exact ih hn
  | minus h ih | bang h ih =>
    simp only [mem_cons, reduceCtorEq, false_or] at hn
    exact ih hn
  | up h ih => exact ih hn
  | bin op ha hb iha ihb =>
    rw [Expr.vars, mem_append]
    rcases mem_append.mp hn with hn | hn
    · exact Or.inl (iha hn)
    · rcases mem_cons.mp hn with hop | hn
      · cases op <;> exact absurd hop (by simp [BinOp.tok])
      · exact Or.inr (ihb hn)

/-- Running the bytes `code` computes the value of `e`: from any state of the
    machine with the code in front of it, the variables in its frame, and
    room below the stack pointer for an operand of each operator. -/
def RunsAs (slot : List UInt8 → BitVec 32) (code : List UInt8) (e : Expr) : Prop :=
  ∀ (cpu : Cpu) (env : List UInt8 → Option (BitVec 32)) (v : BitVec 32),
    e.eval env = some v →
    Loaded cpu.mem cpu.eip.toNat code →
    cpu.eip.toNat + code.length < 2 ^ 32 →
    4 * e.ops ≤ (cpu.reg esp).toNat →
    (cpu.eip.toNat + code.length + 4 * e.ops ≤ (cpu.reg esp).toNat ∨
      (cpu.reg esp).toNat ≤ cpu.eip.toNat) →
    Holds slot env cpu →
    ∃ cpu', Reaches cpu cpu' ∧
      cpu'.eip = cpu.eip + BitVec.ofNat 32 code.length ∧
      cpu'.reg eax = v ∧ cpu'.reg esp = cpu.reg esp ∧ cpu'.reg ebp = cpu.reg ebp ∧
      ∀ a, (cpu.reg esp).toNat ≤ a → cpu'.mem a = cpu.mem a

theorem runsAs_gen {slot : List UInt8 → BitVec 32} (h : Same e e') :
    RunsAs slot (assemble (gen slot e')) e := by
  intro cpu env v hv hload hfit hroom hapart hholds
  have hv' : e'.eval env = some v := (h.1 env).trans hv
  have hready : Ready cpu (gen slot e') (4 * e'.ops) := by
    rw [h.2]
    exact ⟨⟨hload, hfit⟩, hroom, hapart⟩
  rcases evaluates_gen slot env e' v hv' cpu hready hholds with ⟨t, hran, ht⟩
  exact ⟨t, hran.reaches, hran.eip, ht, hran.sp, hran.bp, fun a ha => hran.mem a (Or.inr ha)⟩

/-- Compiled expressions compute their value and keep the stack. A literal is
    read as its value, and on the tokens of an expression `parse_expr` returns
    without an error, behind these tokens; unless the buffer has overflowed,
    what it has appended computes the value. -/
theorem compiled_expr_runs :
    (∀ (l : Lexer) (text rest : List UInt8) (n : Nat), Literal text n → n < 2 ^ 31 →
      l.cur.skipWs.src = text ++ rest → (∀ c ∈ rest.head?, isword c = false) →
      l.next.tok = .num (BitVec.ofNat 32 n)) ∧
    (∀ (ts : List Tok) (e : Expr) (s : Compiler) (l' : Lexer), Derives 0 ts e →
      Reads s.lex ts l' → Stops 0 l'.tok → s.errors = [] → (∀ x ∈ e.vars, Known s.syms x) →
      ∃ s', Parses .expr s s' ∧ s'.errors = [] ∧ s'.lex = l' ∧
        (s'.emit.overflow = false →
          ∃ code, s'.emit.code = s.emit.code ++ code ∧ RunsAs (slotOf s.syms) code e)) := by
  refine ⟨fun l text rest n hlit _ hsrc hrest => (next_literal hlit hsrc hrest).1, ?_⟩
  intro ts e s l' hd hreads hstop herr hknown
  have hin : Input s ts l' := ⟨hreads, herr, fun x hx => hknown x (mem_vars_of_derives hd hx)⟩
  rcases compiles_expr hd s l' hin hstop with ⟨e', he', s', hp, hem, hlex, -⟩
  refine ⟨s', hp, hem.errors.trans herr, hlex, fun ho => ?_⟩
  exact ⟨_, (hem.grows.2 ho).2.1, runsAs_gen he'⟩

/-- In front of the text, with one local variable. -/
def sampleExpr (text : List UInt8) : Compiler :=
  { boot with
    lex := (Lexer.init text).next
    syms := Symbols.add (ascii "a") .loc .int false (-4) 0 (Symbols.init []) }

theorem known_sampleExpr (text : List UInt8) : Known (sampleExpr text).syms (ascii "a") :=
  ⟨_, rfl, Or.inl rfl, rfl, rfl, rfl⟩

/-- Parsing the text succeeds up to the semicolon, with code that computes `e`. -/
def CompiledAs (text : List UInt8) (e : Expr) : Prop :=
  ∃ s', Parses .expr (sampleExpr text) s' ∧ s'.errors = [] ∧ s'.lex.tok = .semi ∧
    (s'.emit.overflow = false → ∃ code, s'.emit.code = code ∧
      RunsAs (slotOf (sampleExpr text).syms) code e)

-- The parser takes another way for an identifier in front than for a number.
theorem compiled_expr_runs_sample :
    CompiledAs (ascii "2 - a * a;")
      (.bin .sub (.lit 2) (.bin .mul (.var (ascii "a")) (.var (ascii "a")))) ∧
    CompiledAs (ascii "a * 2 - a;")
      (.bin .sub (.bin .mul (.var (ascii "a")) (.lit 2)) (.var (ascii "a"))) := by
  have ha : Derives UNARY [.ident (ascii "a")] (.var (ascii "a")) := .ident _
  have h2 : Derives UNARY [.num 2] (.lit 2) := .num 2
  have hstop : Stops 0 .semi :=
    ⟨rfl, fun op hop => by cases op <;> exact absurd hop (by decide)⟩
  have hrun : ∀ text ts e l', Derives 0 ts e → Reads (sampleExpr text).lex ts l' →
      l'.tok = .semi → (∀ x ∈ e.vars, x = ascii "a") → CompiledAs text e := by
    intro text ts e l' hd hreads hsemi hvars
    rcases compiled_expr_runs.2 ts e (sampleExpr text) l' hd hreads (hsemi ▸ hstop) rfl
      (fun x hx => hvars x hx ▸ known_sampleExpr text) with ⟨s', hp, herr, hlex, hrun⟩
    exact ⟨s', hp, herr, hlex ▸ hsemi, hrun⟩
  constructor
  · have hd : Derives 0 _ _ := .up (.up (.up (.up (.up (.up (.up (.up
      (Derives.bin .sub (.up (.up h2)) (Derives.bin .mul (.up ha) ha)))))))))
    exact hrun _ _ _ _ hd ⟨rfl, rfl, rfl, rfl, rfl, rfl⟩ rfl (by simp [Expr.vars])
  · have hd : Derives 0 _ _ := .up (.up (.up (.up (.up (.up (.up (.up
      (Derives.bin .sub (.up (Derives.bin .mul (.up ha) h2)) (.up ha)))))))))
    exact hrun _ _ _ _ hd ⟨rfl, rfl, rfl, rfl, rfl, rfl⟩ rfl (by simp [Expr.vars])

end SysRust.Rc
