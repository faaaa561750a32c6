import Mathlib.Logic.Basic

/-!
# Interpreters with Fuel

Functions that call each other, as one function of the call and the state. The
body of a call is given the interpretation of the calls it makes; `fix` ties
the knot with fuel, and gives `none` if calls nest deeper than that.

To show that fuel never runs out one gives each call in each state a cost, and
shows that a body makes calls of lower cost only. Which calls it makes depends
on what earlier ones return, so the bodies have to be run along with that
argument. `Agree` does so for two interpretations at once: as long as they
agree on the calls of lower cost, the body returns the same with both. That
calls return and that the result does not depend on the fuel is then one fact.

## Main definitions

* `fix`: Interpreting calls with fuel.
* `Agree`: Two computations return the same, and it has a property.

## Theorems

* `Agree.bind`, `Agree.map`: Running one computation after another.
* `agree_fix`: With fuel above its cost, a call returns.
-/

namespace SysRust.Fuel

variable {A B C S : Type}

/-- Interpret calls that nest at most `n` deep. -/
def fix (body : (C → S → Option S) → C → S → Option S) : Nat → C → S → Option S
  | 0, _, _ => none
  | n + 1, c, s => body (fix body n) c s

/-- Both computations return one and the same, and it has the property. -/
def Agree (p : A → Prop) (x y : Option A) : Prop := ∃ a, x = some a ∧ y = some a ∧ p a

variable {p : A → Prop} {x y : Option A}

theorem Agree.some {a : A} (h : p a) : Agree p (some a) (some a) := ⟨a, rfl, rfl, h⟩

variable {q : B → Prop}

theorem Agree.bind {f g : A → Option B} (h : Agree p x y) (hfg : ∀ a, p a → Agree q (f a) (g a)) :
    Agree q (x.bind f) (y.bind g) := by
  rcases h with ⟨a, rfl, rfl, ha⟩
  exact hfg a ha

theorem Agree.map {f : A → B} (h : Agree p x y) (hf : ∀ a, p a → q (f a)) :
    Agree q (x.map f) (y.map f) := by
  rcases h with ⟨a, rfl, rfl, ha⟩
  exact Agree.some (hf a ha)

theorem Agree.mono {q : A → Prop} (h : Agree p x y) (hpq : ∀ a, p a → q a) : Agree q x y := by
  rcases h with ⟨a, hx, hy, ha⟩
  exact ⟨a, hx, hy, hpq a ha⟩

theorem Agree.ite {c : Prop} [Decidable c] {x' y' : Option A} (h : c → Agree p x y)
    (h' : ¬ c → Agree p x' y') : Agree p (if c then x else x') (if c then y else y') := by
  by_cases hc : c
  · rw [if_pos hc, if_pos hc]
    exact h hc
  · rw [if_neg hc, if_neg hc]
    exact h' hc

/-- If a body returns the same with any two interpretations that agree on
    calls of lower cost, then calls return the same with any fuel above their
    cost. -/
theorem agree_fix {body : (C → S → Option S) → C → S → Option S} {cost : C → S → Nat}
    {post : C → S → S → Prop}
    (hbody : ∀ self self' c s,
      (∀ c' s', cost c' s' < cost c s → Agree (post c' s') (self c' s') (self' c' s')) →
      Agree (post c s) (body self c s) (body self' c s))
    {m n : Nat} {c : C} {s : S} (hm : cost c s < m) (hn : cost c s < n) :
    Agree (post c s) (fix body m c s) (fix body n c s) := by
  induction m generalizing n c s with
  | zero => exact absurd hm (Nat.not_lt_zero _)
  | succ k ih =>
    cases n with
    | zero => exact absurd hn (Nat.not_lt_zero _)
    | succ j =>
      refine hbody (fix body k) (fix body j) c s (fun c' s' hlt => ?_)
      exact ih (Nat.lt_of_lt_of_le hlt (Nat.lt_succ_iff.mp hm))
        (Nat.lt_of_lt_of_le hlt (Nat.lt_succ_iff.mp hn))

end SysRust.Fuel
