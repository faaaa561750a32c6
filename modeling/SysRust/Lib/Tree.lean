import Mathlib.Data.List.Nodup
import Mathlib.Data.List.Basic

/-!
# Walks down Lists of Children

A graph in which every node has a list of children, and where a walk down
the children comes to. Each edit of the lists is described by which of them
hold less afterwards: cutting off a child loses what was below it, and if
the child is hung somewhere else that can still be reached, nothing is lost.

None of this needs the graph to be a tree.

## Main definitions

* `Below`: The nodes that a walk down the children comes to.

## Theorems

* `below_closed`, `below_mono`: What every walk keeps to.
* `below_cut`, `below_without`: What is lost when a child is cut off.
* `below_dir`: The node whose list was cut is not lost.
* `below_rehung`: A child that is hung back loses nothing.
-/

namespace SysRust.ChildTree

variable {P : Type}

/-- The nodes a walk down from `a` comes to. -/
inductive Below (kids : P → List P) (a : P) : P → Prop
  | refl : Below kids a a
  | step (d c : P) : Below kids a d → c ∈ kids d → Below kids a c

variable {a c p q x : P} {kids kids' : P → List P}

theorem below_trans {b : P} (h1 : Below kids a b) (h2 : Below kids b c) : Below kids a c := by
  induction h2 with
  | refl => exact h1
  | step d c _ hc ih => exact Below.step d c ih hc

/-- A set that contains the start and the children of its members contains
    everything below. -/
theorem below_closed (S : P → Prop) (ha : S a) (hS : ∀ d, S d → ∀ c ∈ kids d, S c)
    (h : Below kids a p) : S p := by
  induction h with
  | refl => exact ha
  | step d c _ hc ih => exact hS d ih c hc

/-- More children, more below. -/
theorem below_mono (h : ∀ e c, c ∈ kids e → c ∈ kids' e) (hp : Below kids a p) :
    Below kids' a p := by
  induction hp with
  | refl => exact Below.refl
  | step e c _ hc ih => exact Below.step e c ih (h e c hc)

/-- If only `x` and its children are listed less, what is gone was below
    `x`. -/
theorem below_cut (h : ∀ e c, e ≠ x → c ≠ x → c ∈ kids e → c ∈ kids' e) (hp : Below kids a p) :
    Below kids' a p ∨ Below kids x p := by
  induction hp with
  | refl => exact Or.inl Below.refl
  | step e c _ hc ih =>
    by_cases hcx : c = x
    · exact Or.inr (hcx ▸ Below.refl)
    by_cases hex : e = x
    · exact Or.inr (Below.step e c (hex ▸ Below.refl) hc)
    · exact ih.imp (fun he => Below.step e c he (h e c hex hcx hc))
        (fun he => Below.step e c he hc)

/-- If only `x` is listed less, what is gone is still below `x`. -/
theorem below_without (h : ∀ e c, c ≠ x → c ∈ kids e → c ∈ kids' e) (hp : Below kids a p) :
    Below kids' a p ∨ Below kids' x p := by
  induction hp with
  | refl => exact Or.inl Below.refl
  | step e c _ hc ih =>
    by_cases hcx : c = x
    · exact Or.inr (hcx ▸ Below.refl)
    · exact ih.imp (fun he => Below.step e c he (h e c hcx hc))
        (fun he => Below.step e c he (h e c hcx hc))

/-- If only `q` lists less, a walk still comes to `q`. -/
theorem below_dir (h : ∀ e c, e ≠ q → c ∈ kids e → c ∈ kids' e) (hq : Below kids a q) :
    Below kids' a q := by
  have hor : ∀ p, Below kids a p → Below kids' a p ∨ Below kids' a q := by
    intro p hp
    induction hp with
    | refl => exact Or.inl Below.refl
    | step e c _ hc ih =>
      rcases ih with he | hq
      · by_cases heq : e = q
        · exact Or.inr (heq ▸ he)
        · exact Or.inl (Below.step e c he (h e c heq hc))
      · exact Or.inr hq
  exact (hor q hq).elim id id

/-- If only `x` was listed less, and `x` can be reached again, nothing is
    lost. -/
theorem below_rehung (h : ∀ e c, c ≠ x → c ∈ kids e → c ∈ kids' e) (hx : Below kids' a x)
    (hp : Below kids a p) : Below kids' a p :=
  (below_without h hp).elim id (fun hxp => below_trans hx hxp)

end SysRust.ChildTree
