import SysRust.Lib.Precedence
import SysRust.Theory.Rc.Expr

/-!
# Operators as in Rust

The compiler groups operators as C does, and its source language is meant to
be a part of Rust. The two languages order their operators in the same way
with one exception: in C the bitwise operators bind less than the
comparisons, in Rust they bind more. So the two readings of an expression
differ exactly if an operator of each kind stands in it with no parentheses
and no `&&` or `||` in between.

An expression is taken here as it is written: a row of operands with
operators between them, where an operand may be such a row in parentheses.
What is not Rust is a row with two comparisons that no `&&` or `||`
separates; comparisons cannot be chained there.

## Main definitions

* `Operand`, `Row`: Expressions as they are written.
* `BinOp.rustLevel`: The precedence of the operators in Rust.
* `Row.grouping`, `Row.expr`: How a table of levels reads a row.
* `Unchained`: The operators of an expression of Rust.
* `Unmixed`: No bitwise operator and no comparison meet.

## Theorems

* `derives_row`: The grammar of the compiler reads rows by its levels.
* `grouping_eq_iff`: When the two groupings agree.
* `rust_expr_runs`: The emitted code and the value in Rust.
* `bitand_of_equal`: An expression with another value.
-/

namespace SysRust.Rc

open X86 List

mutual

/-- An operand as it is written. -/
inductive Operand where
  | num (v : BitVec 32)
  | true_
  | false_
  | ident (name : List UInt8)
  | paren (r : Row)
  | minus (o : Operand)
  | bang (o : Operand)

/-- Operands with operators between them. -/
inductive Row where
  | one (o : Operand)
  | more (r : Row) (op : BinOp) (o : Operand)

end

mutual

def Operand.toks : Operand → List Tok
  | .num v => [.num v]
  | .true_ => [.true_]
  | .false_ => [.false_]
  | .ident name => [.ident name]
  | .paren r => .lparen :: r.toks ++ [.rparen]
  | .minus o => .minus :: o.toks
  | .bang o => .bang :: o.toks

def Row.toks : Row → List Tok
  | .one o => o.toks
  | .more r op o => r.toks ++ op.tok :: o.toks

end

/-- The first operand of a row. -/
def Row.head : Row → Operand
  | .one o => o
  | .more r _ _ => r.head

/-- The operators of a row outside of parentheses, each with the operand
    behind it. -/
def Row.items : Row → List (BinOp × Operand)
  | .one _ => []
  | .more r op o => r.items ++ [(op, o)]

def Row.ops (r : Row) : List BinOp := r.items.map Prod.fst

mutual

/-- Every row in parentheses inside of an operand has the property. -/
def Operand.All (p : Row → Prop) : Operand → Prop
  | .num _ => True
  | .true_ => True
  | .false_ => True
  | .ident _ => True
  | .paren r => p r ∧ r.Inside p
  | .minus o => o.All p
  | .bang o => o.All p

/-- Every row in parentheses inside of a row has the property. -/
def Row.Inside (p : Row → Prop) : Row → Prop
  | .one o => o.All p
  | .more r _ o => r.Inside p ∧ o.All p

end

/-- The row and every row in parentheses inside of it have the property. -/
def Row.All (p : Row → Prop) (r : Row) : Prop := p r ∧ r.Inside p

/-! ### Levels -/

/-- The precedence of an operator in Rust: 0 binds least. -/
def BinOp.rustLevel : BinOp → Nat
  | .mul => 8
  | .div => 8
  | .rem => 8
  | .add => 7
  | .sub => 7
  | .shl => 6
  | .shr => 6
  | .band => 5
  | .bxor => 4
  | .bor => 3
  | .lt => 2
  | .gt => 2
  | .le => 2
  | .ge => 2
  | .eq => 2
  | .ne => 2
  | .land => 1
  | .lor => 0

namespace BinOp

def isLogical (op : BinOp) : Bool := op = .land ∨ op = .lor

def isBitwise (op : BinOp) : Bool := op = .band ∨ op = .bxor ∨ op = .bor

def isComparison (op : BinOp) : Bool :=
  op = .lt ∨ op = .gt ∨ op = .le ∨ op = .ge ∨ op = .eq ∨ op = .ne

end BinOp

/-- The stretches of operators between `&&` and `||`. -/
def segments (ops : List BinOp) : List (List BinOp) := ops.splitOnP BinOp.isLogical

/-- No two comparisons stand in one stretch. -/
def Unchained (ops : List BinOp) : Prop :=
  ∀ seg ∈ segments ops, seg.countP BinOp.isComparison ≤ 1

/-- No bitwise operator stands in one stretch with a comparison. -/
def Unmixed (ops : List BinOp) : Prop :=
  ∀ seg ∈ segments ops, ∀ b ∈ seg, ∀ c ∈ seg, b.isBitwise = true → c.isComparison = false

instance (ops : List BinOp) : Decidable (Unchained ops) :=
  inferInstanceAs (Decidable (∀ seg ∈ segments ops, seg.countP BinOp.isComparison ≤ 1))

instance (ops : List BinOp) : Decidable (Unmixed ops) :=
  inferInstanceAs (Decidable (∀ seg ∈ segments ops, ∀ b ∈ seg, ∀ c ∈ seg,
    b.isBitwise = true → c.isComparison = false))

/-! ### Readings -/

/-- How a table of levels groups a row. -/
def Row.grouping (lvl : BinOp → Nat) (r : Row) : OpTree BinOp Operand :=
  OpTree.group lvl r.head r.items

/-- The expression of a reading. -/
def treeExpr : OpTree BinOp (List Tok × Expr) → Expr
  | .leaf a => a.2
  | .node op l r => .bin op (treeExpr l) (treeExpr r)

/-- The tokens of a reading. -/
def treeToks : OpTree BinOp (List Tok × Expr) → List Tok
  | .leaf a => a.1
  | .node op l r => treeToks l ++ op.tok :: treeToks r

mutual

def Operand.expr (lvl : BinOp → Nat) : Operand → Expr
  | .num v => .lit v
  | .true_ => .lit 1
  | .false_ => .lit 0
  | .ident name => .var name
  | .paren r => treeExpr (r.tree lvl)
  | .minus o => .neg (o.expr lvl)
  | .bang o => .not (o.expr lvl)

/-- The grouping of a row with the tokens and the expressions of its
    operands. -/
def Row.tree (lvl : BinOp → Nat) : Row → OpTree BinOp (List Tok × Expr)
  | .one o => .leaf (o.toks, o.expr lvl)
  | .more r op o => (r.tree lvl).attach lvl op (o.toks, o.expr lvl)

end

/-- The expression that a row is, by a table of levels. -/
def Row.expr (lvl : BinOp → Nat) (r : Row) : Expr := treeExpr (r.tree lvl)

theorem grouping_more (lvl : BinOp → Nat) (r : Row) (op : BinOp) (o : Operand) :
    (Row.more r op o).grouping lvl = (r.grouping lvl).attach lvl op o := by
  simp only [Row.grouping, Row.head, Row.items, OpTree.group_snoc]

/-- The tree of a row is its grouping. -/
theorem tree_eq_map (lvl : BinOp → Nat) : ∀ r : Row,
    r.tree lvl = (r.grouping lvl).map (fun o => (o.toks, o.expr lvl))
  | .one o => by
      rw [Row.tree]
      rfl
  | .more r op o => by
      rw [Row.tree, tree_eq_map lvl r, grouping_more, OpTree.map_attach]

/-! ### The grammar of the compiler -/

variable {n : Nat} {r : Row} {o : BinOp} {A : Type}

theorem derives_lower {m : Nat} {ts : List Tok} {e : Expr} (h : Derives m ts e) (hn : n ≤ m) :
    Derives n ts e := by
  induction hn with
  | refl => exact h
  | step hle ih => exact ih (.up h)

/-- A tree that is ordered by the levels of the grammar is derived by it. -/
theorem derives_tree {t : OpTree BinOp (List Tok × Expr)} (ho : t.Ordered BinOp.level)
    (ha : t.All (fun a => Derives UNARY a.1 a.2)) (hn : n ≤ UNARY)
    (hops : ∀ op ∈ t.ops, n ≤ op.level) : Derives n (treeToks t) (treeExpr t) := by
  induction t generalizing n with
  | leaf a => exact derives_lower ha hn
  | node op l r ihl ihr =>
    have hop : n ≤ op.level := hops op (by rw [OpTree.ops_node]; simp)
    have hl : Derives op.level (treeToks l) (treeExpr l) :=
      ihl ho.1 ha.1 (Nat.le_of_lt (level_lt op)) ho.2.2.1
    have hr : Derives (op.level + 1) (treeToks r) (treeExpr r) :=
      ihr ho.2.1 ha.2 (level_lt op) ho.2.2.2
    exact derives_lower (.bin op hl hr) hop

theorem treeToks_attach (lvl : BinOp → Nat) (op : BinOp) (a : List Tok × Expr)
    (t : OpTree BinOp (List Tok × Expr)) :
    treeToks (t.attach lvl op a) = treeToks t ++ op.tok :: a.1 := by
  induction t with
  | leaf b => rfl
  | node op' l r _ ih =>
    rw [OpTree.attach]
    by_cases h : lvl op' < lvl op
    · rw [if_pos h, treeToks, ih, treeToks, append_assoc, cons_append]
    · rw [if_neg h]
      rfl

theorem treeToks_tree (lvl : BinOp → Nat) : ∀ r : Row, treeToks (r.tree lvl) = r.toks
  | .one o => by rw [Row.tree, Row.toks, treeToks]
  | .more r op o => by rw [Row.tree, Row.toks, treeToks_attach, treeToks_tree lvl r]

theorem ordered_tree (lvl : BinOp → Nat) : ∀ r : Row, (r.tree lvl).Ordered lvl
  | .one o => by
      rw [Row.tree]
      exact trivial
  | .more r op o => by
      rw [Row.tree]
      exact OpTree.ordered_attach op _ (ordered_tree lvl r)

/-- The grammar derives a row whose operands it derives. -/
theorem derives_of_operands (h : (r.tree BinOp.level).All (fun a => Derives UNARY a.1 a.2)) :
    Derives 0 r.toks (r.expr BinOp.level) := by
  have hd := derives_tree (ordered_tree BinOp.level r) h (Nat.zero_le _) (fun _ _ => Nat.zero_le _)
  rw [treeToks_tree] at hd
  exact hd

mutual

theorem derives_operand : ∀ o : Operand, Derives UNARY o.toks (o.expr BinOp.level)
  | .num v => by
      rw [Operand.toks, Operand.expr]
      exact .num v
  | .true_ => by
      rw [Operand.toks, Operand.expr]
      exact .true_
  | .false_ => by
      rw [Operand.toks, Operand.expr]
      exact .false_
  | .ident name => by
      rw [Operand.toks, Operand.expr]
      exact .ident name
  | .paren r => by
      rw [Operand.toks, Operand.expr]
      exact .paren (derives_of_operands (derives_operands r))
  | .minus o => by
      rw [Operand.toks, Operand.expr]
      exact .minus (derives_operand o)
  | .bang o => by
      rw [Operand.toks, Operand.expr]
      exact .bang (derives_operand o)

theorem derives_operands : ∀ r : Row,
    (r.tree BinOp.level).All (fun a => Derives UNARY a.1 a.2)
  | .one o => by
      rw [Row.tree]
      exact derives_operand o
  | .more r op o => by
      rw [Row.tree]
      exact OpTree.all_attach op (derives_operands r) (derives_operand o)

end

/-- The grammar of the compiler reads every row by its levels. -/
theorem derives_row (r : Row) : Derives 0 r.toks (r.expr BinOp.level) :=
  derives_of_operands (derives_operands r)

/-! ### The two orders -/

section Append

variable {xs ys : List BinOp} {op : BinOp} (h : op.isLogical = true)

include h

theorem segments_append : segments (xs ++ op :: ys) = segments xs ++ segments ys :=
  splitOnP_append_cons xs ys h

theorem unchained_append : Unchained (xs ++ op :: ys) ↔ Unchained xs ∧ Unchained ys := by
  simp only [Unchained, segments_append h, mem_append, or_imp, forall_and]

theorem unmixed_append : Unmixed (xs ++ op :: ys) ↔ Unmixed xs ∧ Unmixed ys := by
  simp only [Unmixed, segments_append h, mem_append, or_imp, forall_and]

end Append

theorem isLogical_iff (op : BinOp) : op.isLogical = true ↔ op.level < 2 := by
  cases op <;> decide

theorem isBitwise_iff (op : BinOp) : op.isBitwise = true ↔ 2 ≤ op.level ∧ op.level < 5 := by
  cases op <;> decide

theorem isComparison_iff (op : BinOp) :
    op.isComparison = true ↔ 5 ≤ op.level ∧ op.level < 7 := by
  cases op <;> decide

/-- Rust moves the comparisons below the bitwise operators, and puts them on
    one level. -/
theorem rustLevel_eq (op : BinOp) :
    op.rustLevel =
      if op.level < 2 then op.level else if op.level < 5 then op.level + 1
      else if op.level < 7 then 2 else op.level - 1 := by
  cases op <;> rfl

variable {op : BinOp} {t : OpTree BinOp A}

theorem isLogical_false (h : 2 ≤ op.level) : op.isLogical = false := by
  rw [← Bool.not_eq_true, isLogical_iff]
  omega

/-- In one stretch, operators that are in order for C are in order for Rust,
    unless a comparison meets a bitwise operator or a comparison. -/
theorem rustLevel_mono (hop : 2 ≤ op.level)
    (hcc : ¬ (op.isComparison = true ∧ o.isComparison = true))
    (hbc : ¬ (op.isBitwise = true ∧ o.isComparison = true)) :
    (op.level ≤ o.level → op.rustLevel ≤ o.rustLevel) ∧
      (op.level < o.level → op.rustLevel < o.rustLevel) := by
  rw [isComparison_iff, isComparison_iff] at hcc
  rw [isBitwise_iff, isComparison_iff] at hbc
  rw [rustLevel_eq, rustLevel_eq]
  constructor
  · intro h
    split_ifs <;> omega
  · intro h
    split_ifs <;> omega

/-- What stands below the root of an ordered tree binds at least as much. -/
theorem level_le_of_mem {lvl : BinOp → Nat} {l r : OpTree BinOp A}
    (h : (OpTree.node op l r).Ordered lvl) (ho : o ∈ (OpTree.node op l r).ops) :
    lvl op ≤ lvl o := by
  rw [OpTree.ops_node, mem_append, mem_cons] at ho
  rcases ho with ho | rfl | ho
  · exact h.2.2.1 o ho
  · exact Nat.le_refl _
  · exact Nat.le_of_lt (h.2.2.2 o ho)

/-- One stretch: a tree that is ordered by the levels of C is ordered by the
    levels of Rust exactly if it has no bitwise operator or no comparison. -/
theorem ordered_rust_single (ho : t.Ordered BinOp.level) (hfree : ∀ op ∈ t.ops, 2 ≤ op.level)
    (hcount : t.ops.countP BinOp.isComparison ≤ 1) :
    t.Ordered BinOp.rustLevel ↔
      ∀ b ∈ t.ops, ∀ c ∈ t.ops, b.isBitwise = true → c.isComparison = false := by
  constructor
  · intro hrust b hb c hc hbit
    cases t with
    | leaf a => exact absurd hb not_mem_nil
    | node op l r =>
      -- The root binds no more than the bitwise operator in C, so it is one.
      have hlow := level_le_of_mem ho hb
      have hop := hfree op (by rw [OpTree.ops_node]; simp)
      have hle := level_le_of_mem hrust hc
      rw [isBitwise_iff] at hbit
      rw [← Bool.not_eq_true, isComparison_iff]
      rw [rustLevel_eq, rustLevel_eq] at hle
      split_ifs at hle <;> omega
  · intro hmix
    induction t with
    | leaf a => exact trivial
    | node op l r ihl ihr =>
      rcases ho with ⟨hl, hr, hle, hlt⟩
      rw [OpTree.ops_node] at hfree hcount hmix
      rw [countP_append, countP_cons] at hcount
      have hleft : ∀ o ∈ l.ops, o ∈ l.ops ++ op :: r.ops := fun o h => mem_append_left _ h
      have hright : ∀ o ∈ r.ops, o ∈ l.ops ++ op :: r.ops :=
        fun o h => mem_append_right _ (mem_cons_of_mem op h)
      have hroot : op ∈ l.ops ++ op :: r.ops := mem_append_right _ mem_cons_self
      have hbit : ∀ o ∈ l.ops ++ op :: r.ops,
          ¬ (op.isBitwise = true ∧ o.isComparison = true) := by
        rintro o ho ⟨hopb, hoc⟩
        rw [hmix op hroot o ho hopb] at hoc
        exact Bool.false_ne_true hoc
      refine ⟨ihl hl (fun o h => hfree o (hleft o h)) (by omega)
          (fun b hb c hc => hmix b (hleft b hb) c (hleft c hc)),
        ihr hr (fun o h => hfree o (hright o h)) (by omega)
          (fun b hb c hc => hmix b (hright b hb) c (hright c hc)),
        fun o ho => ?_, fun o ho => ?_⟩
      · refine (rustLevel_mono (hfree op hroot) ?_ (hbit o (hleft o ho))).1 (hle o ho)
        rintro ⟨hopc, hoc⟩
        have hpos := countP_pos_iff.mpr ⟨o, ho, hoc⟩
        rw [if_pos hopc] at hcount
        omega
      · refine (rustLevel_mono (hfree op hroot) ?_ (hbit o (hright o ho))).2 (hlt o ho)
        rintro ⟨hopc, hoc⟩
        have hpos := countP_pos_iff.mpr ⟨o, ho, hoc⟩
        rw [if_pos hopc] at hcount
        omega

theorem logical_mono (hop : op.isLogical = true) :
    (op.level ≤ o.level → op.rustLevel ≤ o.rustLevel) ∧
      (op.level < o.level → op.rustLevel < o.rustLevel) := by
  rw [isLogical_iff] at hop
  rw [rustLevel_eq, rustLevel_eq, if_pos hop]
  constructor
  · intro h
    split_ifs <;> omega
  · intro h
    split_ifs <;> omega

/-- A tree that is ordered by the levels of C and has no chained comparisons
    is ordered by the levels of Rust exactly if nothing is mixed. -/
theorem ordered_rust_iff (ho : t.Ordered BinOp.level) (hc : Unchained t.ops) :
    t.Ordered BinOp.rustLevel ↔ Unmixed t.ops := by
  induction t with
  | leaf a =>
    refine ⟨fun _ seg hseg b hb => ?_, fun _ => trivial⟩
    rw [mem_singleton.mp hseg] at hb
    exact absurd hb not_mem_nil
  | node op l r ihl ihr =>
    by_cases hop : op.isLogical = true
    · -- The two sides have nothing to do with each other.
      rcases ho with ⟨hl, hr, hle, hlt⟩
      rw [OpTree.ops_node, unchained_append hop] at hc
      rw [OpTree.ops_node, unmixed_append hop, ← ihl hl hc.1, ← ihr hr hc.2]
      constructor
      · rintro ⟨hol, hor, _, _⟩
        exact ⟨hol, hor⟩
      · rintro ⟨hol, hor⟩
        exact ⟨hol, hor, fun o ho => (logical_mono hop).1 (hle o ho),
          fun o ho => (logical_mono hop).2 (hlt o ho)⟩
    · -- No operator below binds less, so all of them are one stretch.
      rw [isLogical_iff] at hop
      have hfree : ∀ o ∈ (OpTree.node op l r).ops, 2 ≤ o.level := by
        intro o hmem
        have hle := level_le_of_mem ho hmem
        omega
      have hone : segments (OpTree.node op l r).ops = [(OpTree.node op l r).ops] :=
        splitOnP_eq_singleton (fun o h => isLogical_false (hfree o h))
      rw [Unchained, hone] at hc
      rw [ordered_rust_single ho hfree (hc _ (mem_singleton_self _)), Unmixed, hone]
      rw [forall_mem_singleton]

/-- The two languages group a row in the same way exactly if nothing is mixed
    in it. -/
theorem grouping_eq_iff (hc : Unchained r.ops) :
    r.grouping BinOp.level = r.grouping BinOp.rustLevel ↔ Unmixed r.ops := by
  have hops : (r.grouping BinOp.level).ops = r.ops := by
    rw [Row.grouping, OpTree.ops, OpTree.items_group, Row.ops]
  rw [Row.grouping, Row.grouping, OpTree.group_eq_iff]
  rw [← hops] at hc ⊢
  exact ordered_rust_iff (OpTree.ordered_group _ _ _) hc

mutual

theorem Operand.all_congr {p q w : Row → Prop} (hpq : ∀ r, w r → (p r ↔ q r)) :
    ∀ o : Operand, o.All w → (o.All p ↔ o.All q)
  | .paren r, h => by
      rw [Operand.All] at h
      rw [Operand.All, Operand.All, hpq r h.1, Row.inside_congr hpq r h.2]
  | .minus o, h | .bang o, h => by
      rw [Operand.All] at h
      rw [Operand.All, Operand.All, Operand.all_congr hpq o h]
  | .num _, _ | .true_, _ | .false_, _ | .ident _, _ => by rw [Operand.All, Operand.All]

theorem Row.inside_congr {p q w : Row → Prop} (hpq : ∀ r, w r → (p r ↔ q r)) :
    ∀ r : Row, r.Inside w → (r.Inside p ↔ r.Inside q)
  | .one o, h => by
      rw [Row.Inside] at h
      rw [Row.Inside, Row.Inside, Operand.all_congr hpq o h]
  | .more r _ o, h => by
      rw [Row.Inside] at h
      rw [Row.Inside, Row.Inside, Row.inside_congr hpq r h.1, Operand.all_congr hpq o h.2]

end

theorem Row.all_congr {p q w : Row → Prop} (hpq : ∀ r, w r → (p r ↔ q r)) (h : r.All w) :
    r.All p ↔ r.All q := by
  rw [Row.All, Row.All, hpq r h.1, Row.inside_congr hpq r h.2]

mutual

/-- Where all groupings agree, so do the expressions. -/
theorem Operand.expr_eq : ∀ o : Operand,
    o.All (fun r => r.grouping BinOp.level = r.grouping BinOp.rustLevel) →
    o.expr BinOp.level = o.expr BinOp.rustLevel
  | .paren r, h => by
      rw [Operand.All] at h
      rw [Operand.expr, Operand.expr, tree_eq_map, tree_eq_map, ← h.1,
        OpTree.map_congr (Row.operands_eq r h.2 BinOp.level)]
  | .minus o, h | .bang o, h => by
      rw [Operand.All] at h
      rw [Operand.expr, Operand.expr, Operand.expr_eq o h]
  | .num _, _ | .true_, _ | .false_, _ | .ident _, _ => by rw [Operand.expr, Operand.expr]

theorem Row.operands_eq : ∀ r : Row,
    r.Inside (fun r => r.grouping BinOp.level = r.grouping BinOp.rustLevel) → ∀ lvl,
    (r.grouping lvl).All
      (fun o => (o.toks, o.expr BinOp.level) = (o.toks, o.expr BinOp.rustLevel))
  | .one o, h, lvl => by
      rw [Row.Inside] at h
      exact congrArg (Prod.mk o.toks) (Operand.expr_eq o h)
  | .more r op o, h, lvl => by
      rw [Row.Inside] at h
      rw [grouping_more]
      exact OpTree.all_attach op (Row.operands_eq r h.1 lvl)
        (congrArg (Prod.mk o.toks) (Operand.expr_eq o h.2))

end

theorem Row.expr_eq (h : r.All (fun r => r.grouping BinOp.level = r.grouping BinOp.rustLevel)) :
    r.expr BinOp.level = r.expr BinOp.rustLevel := by
  rw [Row.expr, Row.expr, tree_eq_map, tree_eq_map, ← h.1,
    OpTree.map_congr (Row.operands_eq r h.2 BinOp.level)]

/-! ### The emitted code -/

/-- Operators and the emitted code. The compiler groups the operators of an
    expression of Rust as Rust does exactly if no bitwise operator meets a
    comparison in it, in parentheses or outside of them. It parses every such
    expression without an error; unless the buffer has overflowed, the code
    computes the value by the levels of C, and if nothing is mixed the value
    in Rust. -/
theorem rust_expr_runs (r : Row) (hrust : r.All (fun q => Unchained q.ops)) :
    (r.All (fun q => q.grouping BinOp.level = q.grouping BinOp.rustLevel) ↔
      r.All (fun q => Unmixed q.ops)) ∧
    ∀ (s : Compiler) (l' : Lexer), Reads s.lex r.toks l' → Stops 0 l'.tok → s.errors = [] →
      (∀ name, Tok.ident name ∈ r.toks → Known s.syms name) →
      ∃ s', Parses .expr s s' ∧ s'.errors = [] ∧ s'.lex = l' ∧
        (s'.emit.overflow = false →
          ∃ code, s'.emit.code = s.emit.code ++ code ∧
            RunsAs (slotOf s.syms) code (r.expr BinOp.level) ∧
            (r.All (fun q => Unmixed q.ops) →
              RunsAs (slotOf s.syms) code (r.expr BinOp.rustLevel))) := by
  have hiff := Row.all_congr (fun q (hq : Unchained q.ops) => grouping_eq_iff hq) hrust
  refine ⟨hiff, fun s l' hreads hstop herr hknown => ?_⟩
  rcases compiles_expr (derives_row r) s l' ⟨hreads, herr, hknown⟩ hstop with
    ⟨e', he', s', hp, hem, hlex, -⟩
  refine ⟨s', hp, hem.errors.trans herr, hlex, fun ho => ?_⟩
  refine ⟨_, (hem.grows.2 ho).2.1, runsAs_gen he', fun hmix => ?_⟩
  rw [← Row.expr_eq (hiff.mpr hmix)]
  exact runsAs_gen he'

/-- `a & 1 == 0`. -/
def maskRow : Row := .more (.more (.one (.ident (ascii "a"))) .band (.num 1)) .eq (.num 0)

/-- `(a & 1) == 0`. -/
def maskParen : Row :=
  .more (.one (.paren (.more (.one (.ident (ascii "a"))) .band (.num 1)))) .eq (.num 0)

/-- In front of a text, with one local variable. -/
def withLocal (text : String) : Compiler :=
  { boot with
    lex := (Lexer.init (ascii text)).next
    syms := Symbols.add (ascii "a") .loc .int false (-4) 0 (Symbols.init []) }

theorem rust_expr_runs_paren :
    ∃ s', Parses .expr (withLocal "(a & 1) == 0;") s' ∧ s'.errors = [] ∧ s'.lex.tok = .semi ∧
      (s'.emit.overflow = false → ∃ code, s'.emit.code = code ∧
        RunsAs (slotOf (withLocal "(a & 1) == 0;").syms) code
          (maskParen.expr BinOp.rustLevel)) := by
  have hrust : maskParen.All (fun q => Unchained q.ops) :=
    ⟨by decide, ⟨by decide, trivial, trivial⟩, trivial⟩
  have hmix : maskParen.All (fun q => Unmixed q.ops) :=
    ⟨by decide, ⟨by decide, trivial, trivial⟩, trivial⟩
  have hknown : ∀ name, Tok.ident name ∈ maskParen.toks →
      Known (withLocal "(a & 1) == 0;").syms name := by
    intro name hn
    have hname : name = ascii "a" := by
      simp only [maskParen, Row.toks, Operand.toks, BinOp.tok, cons_append, nil_append,
        mem_cons, not_mem_nil, reduceCtorEq, false_or, or_false, Tok.ident.injEq] at hn
      exact hn
    rw [hname]
    exact ⟨_, rfl, Or.inl rfl, rfl, rfl, rfl⟩
  rcases (rust_expr_runs maskParen hrust).2 (withLocal "(a & 1) == 0;") _
    ⟨rfl, rfl, rfl, rfl, rfl, rfl, rfl, rfl⟩
    ⟨rfl, fun op hop => by cases op <;> exact absurd hop (by decide)⟩ rfl hknown
    with ⟨s', hp, herr, hlex, hrun⟩
  refine ⟨s', hp, herr, by rw [hlex]; rfl, fun ho => ?_⟩
  rcases hrun ho with ⟨code, hcode, _, hruns⟩
  exact ⟨code, hcode, hruns hmix⟩

/-- A machine in front of the code for `a & 1 == 0`, where `a` is 2. -/
def maskCpu (code : List UInt8) : Cpu where
  reg := fun r => if r = esp then 0x1000 else if r = ebp then 0x2000 else 0
  eip := 0x10000
  flags := none
  mem := fun i => if i = 0x1FFC then 2 else if i < 0x10000 then 0 else code.getD (i - 0x10000) 0

/-- The code that the compiler emits for `a & 1 == 0`. -/
def maskCode : List UInt8 :=
  [0x8B, 0x85, 0xFC, 0xFF, 0xFF, 0xFF, 0x50, 0xB8, 1, 0, 0, 0, 0x50, 0xB8, 0, 0, 0, 0,
    0x89, 0xC1, 0x58, 0x39, 0xC8, 0x0F, 0x94, 0xC0, 0x0F, 0xB6, 0xC0, 0x89, 0xC1, 0x58, 0x21, 0xC8]

/-- No run of `maskCpu` has 1 in `eax` behind the code: the code takes 13
    steps, and what stands behind it is not an instruction. -/
theorem maskCpu_runs {cpu : Cpu} (h : run n (maskCpu maskCode) = some cpu) :
    ¬ (cpu.eip = 0x10000 + BitVec.ofNat 32 maskCode.length ∧ cpu.reg eax = 1) := by
  have hstuck : (run 14 (maskCpu maskCode)).isNone = true := by decide
  have hshort : (List.range 14).all (fun k => (run k (maskCpu maskCode)).all (fun t =>
      !(t.eip == 0x10000 + BitVec.ofNat 32 maskCode.length && t.reg eax == 1))) = true := by
    decide +kernel
  rcases Nat.lt_or_ge n 14 with hn | hn
  · have hk := all_eq_true.mp hshort n (mem_range.mpr hn)
    rw [h, Option.all_some, Bool.not_eq_true', Bool.and_eq_false_iff] at hk
    rintro ⟨heip, heax⟩
    rw [heip, heax] at hk
    exact absurd hk (by decide)
  · rw [run_none (Option.isNone_iff_eq_none.mp hstuck) hn] at h
    cases h

/-- An even number is not recognised by `a & 1 == 0`. -/
theorem bitand_of_equal :
    ∃ s', parse 12 .expr (withLocal "a & 1 == 0;") = some s' ∧ s'.errors = [] ∧
      s'.emit.overflow = false ∧ Reads (withLocal "a & 1 == 0;").lex maskRow.toks s'.lex ∧
      s'.lex.tok = .semi ∧
      ¬ RunsAs (slotOf (withLocal "a & 1 == 0;").syms) s'.emit.code
        (maskRow.expr BinOp.rustLevel) := by
  have hcode : (parse 12 .expr (withLocal "a & 1 == 0;")).map (fun s => s.emit.code) =
      some maskCode := by decide +kernel
  rcases Option.map_eq_some_iff.mp hcode with ⟨s', hs', hbytes⟩
  have hstate : (parse 12 .expr (withLocal "a & 1 == 0;")).map
      (fun s => (s.errors.length, s.emit.overflow)) = some (0, false) := by decide +kernel
  have hlex : (parse 12 .expr (withLocal "a & 1 == 0;")).map (fun s => s.lex) =
      some (withLocal "a & 1 == 0;").lex.next.next.next.next.next := by rfl
  rw [hs', Option.map_some, Option.some.injEq] at hstate hlex
  refine ⟨s', hs', length_eq_zero_iff.mp (congrArg Prod.fst hstate),
    congrArg Prod.snd hstate, ?_, ?_, fun hruns => ?_⟩
  · rw [hlex]
    exact ⟨rfl, rfl, rfl, rfl, rfl, rfl⟩
  · rw [hlex]
    rfl
  · rw [hbytes] at hruns
    have hload : Loaded (maskCpu maskCode).mem 0x10000 maskCode := by
      have hall : ∀ i : Fin maskCode.length,
          (maskCpu maskCode).mem (0x10000 + i) = maskCode[i] := by decide
      exact fun i hi => hall ⟨i, hi⟩
    have hholds : Holds (slotOf (withLocal "a & 1 == 0;").syms)
        (fun name => if name = ascii "a" then some 2 else none) (maskCpu maskCode) := by
      intro name v hv
      dsimp only at hv
      by_cases hname : name = ascii "a"
      · rw [if_pos hname, Option.some.injEq] at hv
        rw [hname, ← hv]
        decide
      · rw [if_neg hname] at hv
        cases hv
    rcases hruns (maskCpu maskCode) (fun name => if name = ascii "a" then some 2 else none) 1
      rfl hload (by decide) (by decide) (Or.inr (by decide)) hholds
      with ⟨cpu, ⟨n, hn⟩, heip, heax, -⟩
    exact maskCpu_runs hn ⟨heip, heax⟩

end SysRust.Rc
