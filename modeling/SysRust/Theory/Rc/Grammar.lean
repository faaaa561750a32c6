import SysRust.Core.Rc.Lang

/-!
# The Spine of an Expression

An expression outside of parentheses is its leftmost operand and what stands
behind it: operators, each with its right operand. In the grammar the levels
of these operators go down from left to right, and each right operand is of
a level above its operator. A parser that reads from left to right meets an
expression in this form.

## Main definitions

* `Item`: An operator with its right operand.
* `spineToks`, `spineExpr`: What a spine stands for.
* `Spine`: An expression by its leftmost operand and its items.
* `Same`: Two expressions with the same value.

## Theorems

* `spine_of_derives`: Every expression has a spine.
* `derives_spine`: Items of one level go on with an expression of that level.
* `same_assoc`: `|`, `&&` and `||` are associative.
* `same_regroup`: Grouping them to the right.
-/

namespace SysRust.Rc

open List

/-- An operator with the tokens of its right operand. -/
structure Item where
  op : BinOp
  toks : List Tok
  rhs : Expr

def Item.level (it : Item) : Nat := it.op.level

/-- The tokens of some items. -/
def spineToks (items : List Item) : List Tok := items.flatMap (fun it => it.op.tok :: it.toks)

/-- The expression of some items behind `a`, grouped to the left. -/
def spineExpr (a : Expr) (items : List Item) : Expr :=
  items.foldl (fun a it => .bin it.op a it.rhs) a

theorem spineToks_append (xs ys : List Item) :
    spineToks (xs ++ ys) = spineToks xs ++ spineToks ys := flatMap_append

theorem spineExpr_append (a : Expr) (xs ys : List Item) :
    spineExpr a (xs ++ ys) = spineExpr (spineExpr a xs) ys := foldl_append

/-- Every right operand is of a level above its operator. -/
def ItemsDerive (items : List Item) : Prop :=
  ∀ it ∈ items, Derives (it.level + 1) it.toks it.rhs

/-- The levels of the operators go down. -/
def Falling (items : List Item) : Prop := items.Pairwise (fun x y => y.level ≤ x.level)

/-- An expression of level `l` by its leftmost operand and its items. -/
structure Spine (l : Nat) (ts : List Tok) (e : Expr) where
  headToks : List Tok
  head : Expr
  items : List Item
  derives : Derives UNARY headToks head
  itemsDerive : ItemsDerive items
  falling : Falling items
  above : ∀ it ∈ items, l ≤ it.level
  toks_eq : ts = headToks ++ spineToks items
  expr_eq : e = spineExpr head items

theorem level_lt (op : BinOp) : op.level < UNARY := by
  cases op <;> decide

/-- A single operand. -/
def Spine.single {ts : List Tok} {e : Expr} (h : Derives UNARY ts e) (l : Nat) : Spine l ts e where
  headToks := ts
  head := e
  items := []
  derives := h
  itemsDerive := forall_mem_nil _
  falling := List.Pairwise.nil
  above := forall_mem_nil _
  toks_eq := (append_nil ts).symm
  expr_eq := rfl

variable {e a b a' e' : Expr} {l : Nat} {ts : List Tok} {op : BinOp}

/-- Every expression has a spine. -/
theorem spine_of_derives (h : Derives l ts e) : Nonempty (Spine l ts e) := by
  induction h with
  | num v => exact ⟨Spine.single (.num v) _⟩
  | true_ => exact ⟨Spine.single .true_ _⟩
  | false_ => exact ⟨Spine.single .false_ _⟩
  | ident name => exact ⟨Spine.single (.ident name) _⟩
  | paren h _ => exact ⟨Spine.single (.paren h) _⟩
  | minus h _ => exact ⟨Spine.single (.minus h) _⟩
  | bang h _ => exact ⟨Spine.single (.bang h) _⟩
  | up _ ih =>
    rcases ih with ⟨sp⟩
    exact ⟨{ sp with above := fun it hit => Nat.le_of_succ_le (sp.above it hit) }⟩
  | @bin op ts us a b _ hb iha _ =>
    rcases iha with ⟨sp⟩
    refine ⟨{ headToks := sp.headToks, head := sp.head, items := sp.items ++ [⟨op, us, b⟩],
              derives := sp.derives, itemsDerive := ?_, falling := ?_, above := ?_,
              toks_eq := ?_, expr_eq := ?_ }⟩
    · intro it hit
      rcases mem_append.mp hit with hit | hit
      · exact sp.itemsDerive it hit
      · rw [mem_singleton.mp hit]
        exact hb
    · refine pairwise_append.mpr ⟨sp.falling, pairwise_singleton _ _, ?_⟩
      intro x hx y hy
      rw [mem_singleton.mp hy]
      exact sp.above x hx
    · intro it hit
      rcases mem_append.mp hit with hit | hit
      · exact sp.above it hit
      · rw [mem_singleton.mp hit]
        exact Nat.le_refl _
    · refine (congrArg (· ++ op.tok :: us) sp.toks_eq).trans ?_
      simp only [spineToks, flatMap_append, flatMap_cons, flatMap_nil,
        append_nil, append_assoc]
    · refine (congrArg (fun x => Expr.bin op x b) sp.expr_eq).trans ?_
      rw [spineExpr_append]
      rfl

variable {items : List Item}

/-- Items of level `l` go on with an expression of level `l`. -/
theorem derives_spine (ha : Derives l ts a) (hd : ItemsDerive items)
    (hl : ∀ it ∈ items, it.level = l) : Derives l (ts ++ spineToks items) (spineExpr a items) := by
  induction items generalizing ts a with
  | nil =>
    rw [show spineToks [] = [] from rfl, append_nil]
    exact ha
  | cons it items ih =>
    have hit := hl it mem_cons_self
    have hbin : Derives l (ts ++ it.op.tok :: it.toks) (.bin it.op a it.rhs) := by
      have ha' : Derives it.op.level ts a := by rw [show it.op.level = l from hit]; exact ha
      rw [← hit]
      exact .bin it.op ha' (hd it mem_cons_self)
    have h := ih hbin (fun x hx => hd x (mem_cons_of_mem it hx))
      (fun x hx => hl x (mem_cons_of_mem it hx))
    rw [append_assoc] at h
    exact h

theorem level_le_of_derives (h : Derives l ts e) : l ≤ UNARY := by
  induction h with
  | up _ ih => exact Nat.le_of_succ_le ih
  | bin op _ _ _ _ => exact Nat.le_of_lt (level_lt op)
  | _ => exact Nat.le_refl _

/-! ### Values -/

/-- The second expression has the value of the first, and as many operators. -/
def Same (e e' : Expr) : Prop := (∀ env, e'.eval env = e.eval env) ∧ e'.ops = e.ops

theorem Same.refl (e : Expr) : Same e e := ⟨fun _ => rfl, rfl⟩

theorem Same.trans {c : Expr} (h1 : Same a b) (h2 : Same b c) : Same a c :=
  ⟨fun env => (h2.1 env).trans (h1.1 env), h2.2.trans h1.2⟩

theorem Same.bin (op : BinOp) {b' : Expr} (ha : Same a a') (hb : Same b b') :
    Same (.bin op a b) (.bin op a' b') := by
  refine ⟨fun env => ?_, ?_⟩
  · simp only [Expr.eval, ha.1 env, hb.1 env]
  · simp only [Expr.ops, ha.2, hb.2]

theorem Same.neg (h : Same e e') : Same (.neg e) (.neg e') :=
  ⟨fun env => by simp only [Expr.eval, h.1 env], h.2⟩

theorem Same.not (h : Same e e') : Same (.not e) (.not e') :=
  ⟨fun env => by simp only [Expr.eval, h.1 env], h.2⟩

theorem Same.spine (h : Same a a') (items : List Item) :
    Same (spineExpr a items) (spineExpr a' items) := by
  induction items generalizing a a' with
  | nil => exact h
  | cons it items ih => exact ih (h.bin it.op (Same.refl it.rhs))

/-- The operators that `parse_binops` groups to the right. -/
def BinOp.rightward : BinOp → Bool
  | .bor => true
  | .land => true
  | .lor => true
  | _ => false

theorem run_assoc (hop : op.rightward = true) (x : BitVec 32) (r t : Option (BitVec 32)) :
    op.run x (r.bind (fun y => op.run y t)) = (op.run x r).bind (fun z => op.run z t) := by
  cases op <;> simp only [BinOp.rightward, Bool.false_eq_true] at hop
  case bor =>
      cases r <;> cases t <;> simp [BinOp.run, BitVec.or_assoc]
  case land =>
      by_cases hx : x = 0#32
      · simp [BinOp.run, hx]
      · cases r with
        | none => simp [BinOp.run, hx]
        | some y => by_cases hy : y = 0#32 <;> cases t <;> simp [BinOp.run, hx, hy, ofBool]
  case lor =>
      by_cases hx : x = 0#32
      · cases r with
        | none => simp [BinOp.run, hx]
        | some y => by_cases hy : y = 0#32 <;> cases t <;> simp [BinOp.run, hx, hy, ofBool]
      · simp [BinOp.run, hx]

/-- `|`, `&&` and `||` are associative. -/
theorem same_assoc (hop : op.rightward = true) (a b c : Expr) :
    Same (.bin op (.bin op a b) c) (.bin op a (.bin op b c)) := by
  refine ⟨fun env => ?_, by simp only [Expr.ops]; omega⟩
  simp only [Expr.eval, Option.bind_assoc, run_assoc hop]

/-- Items of one of these operators grouped to the right. -/
theorem same_regroup (hop : op.rightward = true) (a b : Expr) (hitems : ∀ it ∈ items, it.op = op) :
    Same (spineExpr (.bin op a b) items) (.bin op a (spineExpr b items)) := by
  induction items generalizing b with
  | nil => exact Same.refl _
  | cons it items ih =>
    have hit := hitems it mem_cons_self
    have hassoc : Same (.bin it.op (.bin op a b) it.rhs) (.bin op a (.bin it.op b it.rhs)) := by
      rw [hit]
      exact same_assoc hop a b it.rhs
    exact (hassoc.spine items).trans
      (ih (.bin it.op b it.rhs) (fun x hx => hitems x (mem_cons_of_mem it hx)))

end SysRust.Rc
