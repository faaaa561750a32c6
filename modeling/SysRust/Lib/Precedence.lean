import Mathlib.Data.List.Induction

/-!
# Operator Precedence

A row of operands with binary operators between them, and the trees it can be
read as. A reading has the operands and operators of the row from left to
right; which of the readings is meant is settled by giving each operator a
level. An operator takes as its right operand what binds more than itself,
and as its left operand what binds at least as much, so that operators of one
level are grouped to the left.

For each table of levels there is one such reading. Two tables can therefore
be compared on a row by asking whether the reading of the one is ordered by
the other.

## Main definitions

* `OpTree`: A reading.
* `head`, `items`, `ops`: The row that is read.
* `Ordered`: The reading follows the levels.
* `attach`, `group`: Computing the reading, from left to right.

## Theorems

* `ordered_unique`: There is one ordered reading.
* `ordered_group`: `group` computes it.
* `group_eq_iff`: When two tables of levels agree on a row.
-/

namespace SysRust

open List

/-- Operands of type `A` with operators of type `O` between them, grouped. -/
inductive OpTree (O A : Type) where
  | leaf (a : A)
  | node (op : O) (left right : OpTree O A)

namespace OpTree

variable {O A B : Type} {lvl lvl' : O → Nat}

/-- The first operand. -/
def head : OpTree O A → A
  | leaf a => a
  | node _ l _ => l.head

/-- The operators, each with the operand behind it. -/
def items : OpTree O A → List (O × A)
  | leaf _ => []
  | node op l r => l.items ++ (op, r.head) :: r.items

def ops (t : OpTree O A) : List O := t.items.map Prod.fst

/-- The same reading of other operands. -/
def map (f : A → B) : OpTree O A → OpTree O B
  | leaf a => leaf (f a)
  | node op l r => node op (l.map f) (r.map f)

/-- Every operand has the property. -/
def All (p : A → Prop) : OpTree O A → Prop
  | leaf a => p a
  | node _ l r => l.All p ∧ r.All p

@[simp]
theorem ops_node (op : O) (l r : OpTree O A) : (node op l r).ops = l.ops ++ op :: r.ops := by
  simp only [ops, items, map_append, map_cons]

/-! ### Ordered readings -/

/-- To the left of an operator stands what binds at least as much, to its
    right what binds more. -/
def Ordered (lvl : O → Nat) : OpTree O A → Prop
  | leaf _ => True
  | node op l r => l.Ordered lvl ∧ r.Ordered lvl ∧ (∀ o ∈ l.ops, lvl op ≤ lvl o) ∧
      ∀ o ∈ r.ops, lvl op < lvl o

/-- The operator at the root is in the same place in any two ordered readings
    of a row, so it is not further to the right in the second. -/
theorem root_not_before {op op' : O} {l r l' r' : OpTree O A}
    (h : (node op l r).Ordered lvl) (h' : (node op' l' r').Ordered lvl)
    (hitems : (node op l r).items = (node op' l' r').items) :
    ¬ l.items.length < l'.items.length := by
  intro hlt
  rcases append_eq_append_iff.mp hitems with ⟨mid, hl', hr⟩ | ⟨mid, hl, hr⟩
  · cases mid with
    | nil =>
      rw [append_nil] at hl'
      rw [hl'] at hlt
      omega
    | cons x xs =>
      -- `op` is left of the second root, and the second root right of `op`.
      rw [cons_append, List.cons.injEq] at hr
      have hin' : op ∈ l'.ops := by
        rw [ops, hl', ← hr.1]
        simp
      have hin : op' ∈ r.ops := by
        rw [ops, hr.2]
        simp
      have hle := h'.2.2.1 op hin'
      have hgt := h.2.2.2 op' hin
      omega
  · rw [hl, length_append] at hlt
    omega

theorem length_items_pos (op : O) (l r : OpTree O A) : 0 < (node op l r).items.length := by
  simp only [items, length_append, length_cons]
  omega

variable {t : OpTree O A}

/-- There is one ordered reading of a row. -/
theorem ordered_unique {u : OpTree O A} (ht : t.Ordered lvl) (hu : u.Ordered lvl)
    (hhead : t.head = u.head) (hitems : t.items = u.items) : t = u := by
  induction t generalizing u with
  | leaf a =>
    cases u with
    | leaf b => rw [show a = b from hhead]
    | node op l r =>
      have hpos := length_items_pos op l r
      rw [← hitems] at hpos
      exact absurd hpos (Nat.lt_irrefl 0)
  | node op l r ihl ihr =>
    cases u with
    | leaf b =>
      have hpos := length_items_pos op l r
      rw [hitems] at hpos
      exact absurd hpos (Nat.lt_irrefl 0)
    | node op' l' r' =>
      have hlen : l.items.length = l'.items.length := by
        have h1 := root_not_before ht hu hitems
        have h2 := root_not_before hu ht hitems.symm
        omega
      rcases append_inj hitems hlen with ⟨hl, hr⟩
      rw [List.cons.injEq, Prod.mk.injEq] at hr
      rw [hr.1.1, ihl ht.1 hu.1 hhead hl, ihr ht.2.1 hu.2.1 hr.1.2 hr.2]

/-! ### Computing the reading -/

/-- Add an operator and an operand at the right end. -/
def attach (lvl : O → Nat) (op : O) (b : A) : OpTree O A → OpTree O A
  | leaf a => node op (leaf a) (leaf b)
  | node op' l r =>
    if lvl op' < lvl op then node op' l (attach lvl op b r)
    else node op (node op' l r) (leaf b)

/-- The reading of a row. -/
def group (lvl : O → Nat) (a : A) (row : List (O × A)) : OpTree O A :=
  row.foldl (fun t it => t.attach lvl it.1 it.2) (leaf a)

theorem head_attach (lvl : O → Nat) (op : O) (b : A) (t : OpTree O A) :
    (t.attach lvl op b).head = t.head := by
  cases t with
  | leaf a => rfl
  | node op' l r =>
    rw [attach]
    by_cases h : lvl op' < lvl op
    · rw [if_pos h]
      rfl
    · rw [if_neg h]
      rfl

theorem items_attach (lvl : O → Nat) (op : O) (b : A) (t : OpTree O A) :
    (t.attach lvl op b).items = t.items ++ [(op, b)] := by
  induction t with
  | leaf a => rfl
  | node op' l r _ ih =>
    rw [attach]
    by_cases h : lvl op' < lvl op
    · rw [if_pos h, items, items, ih, head_attach]
      simp only [append_assoc, cons_append]
    · rw [if_neg h]
      rfl

theorem ordered_attach (op : O) (b : A) (ht : t.Ordered lvl) : (t.attach lvl op b).Ordered lvl := by
  induction t with
  | leaf a => exact ⟨trivial, trivial, forall_mem_nil _,
      forall_mem_nil _⟩
  | node op' l r _ ih =>
    rw [attach]
    by_cases h : lvl op' < lvl op
    · rw [if_pos h]
      refine ⟨ht.1, ih ht.2.1, ht.2.2.1, fun o ho => ?_⟩
      rw [ops, items_attach, map_append, mem_append] at ho
      rcases ho with ho | ho
      · exact ht.2.2.2 o ho
      · rw [mem_singleton.mp ho]
        exact h
    · -- Everything so far binds at least as much as its root.
      rw [if_neg h]
      refine ⟨ht, trivial, fun o ho => ?_, forall_mem_nil _⟩
      rw [ops_node, mem_append, mem_cons] at ho
      rcases ho with ho | rfl | ho
      · have hle := ht.2.2.1 o ho
        omega
      · omega
      · have hlt := ht.2.2.2 o ho
        omega

theorem all_attach {p : A → Prop} (op : O) {b : A} (ht : t.All p) (hb : p b) :
    (t.attach lvl op b).All p := by
  induction t with
  | leaf a => exact ⟨ht, hb⟩
  | node op' l r _ ih =>
    rw [attach]
    by_cases h : lvl op' < lvl op
    · rw [if_pos h]
      exact ⟨ht.1, ih ht.2⟩
    · rw [if_neg h]
      exact ⟨ht, hb⟩

theorem map_attach (f : A → B) (op : O) (b : A) (t : OpTree O A) :
    (t.attach lvl op b).map f = (t.map f).attach lvl op (f b) := by
  induction t with
  | leaf a => rfl
  | node op' l r _ ih =>
    rw [attach, map, attach]
    by_cases h : lvl op' < lvl op
    · rw [if_pos h, if_pos h, map, ih]
    · rw [if_neg h, if_neg h]
      rfl

/-- Operands on which two functions agree may be mapped by either. -/
theorem map_congr {f g : A → B} (h : t.All (fun a => f a = g a)) : t.map f = t.map g := by
  induction t with
  | leaf a => exact congrArg leaf h
  | node op l r ihl ihr => rw [map, map, ihl h.1, ihr h.2]

section Group

variable (lvl lvl') (a : A) (row : List (O × A))

theorem group_snoc (op : O) (b : A) :
    group lvl a (row ++ [(op, b)]) = (group lvl a row).attach lvl op b := by
  simp only [group, foldl_append, foldl_cons, foldl_nil]

theorem head_group : (group lvl a row).head = a := by
  induction row using List.reverseRecOn with
  | nil => rfl
  | append_singleton row it ih => rw [group_snoc, head_attach, ih]

theorem items_group : (group lvl a row).items = row := by
  induction row using List.reverseRecOn with
  | nil => rfl
  | append_singleton row it ih => rw [group_snoc, items_attach, ih]

theorem ordered_group : (group lvl a row).Ordered lvl := by
  induction row using List.reverseRecOn with
  | nil => exact trivial
  | append_singleton row it ih =>
    rw [group_snoc]
    exact ordered_attach it.1 it.2 ih

/-- Two tables of levels give one reading exactly if the reading by the first
    is ordered by the second. -/
theorem group_eq_iff :
    group lvl a row = group lvl' a row ↔ (group lvl a row).Ordered lvl' := by
  constructor
  · intro h
    rw [h]
    exact ordered_group lvl' a row
  · intro h
    refine ordered_unique h (ordered_group lvl' a row) ?_ ?_
    · rw [head_group, head_group]
    · rw [items_group, items_group]

end Group

end OpTree

end SysRust
