import Mathlib.Logic.Basic

/-!
# Services and Their Traces

A component seen from outside: requests go in and replies come out. A
`Service` is a step relation with both on its label, and a trace is what a
client can write down about a run. One service refines another if every
trace of the first is a trace of the second, and the way to show it is a
forward simulation: a relation between the states that every step can be
followed across.

A relation and not a function, because the service that says what is meant
may leave things open, such as which requests fail for lack of memory.

## Main definitions

* `Service`: Steps labelled with a request and its reply.
* `Trace`: The requests and replies of a run.
* `restrict`: The same service under more careful clients.

## Theorems

* `Trace.simulate`: A forward simulation carries traces over.
-/

namespace SysRust

structure Service (S O R : Type) where
  step : S → O → R → S → Prop

namespace Service

variable {S T O R : Type}

/-- The requests and replies of a run from one state to another. -/
inductive Trace (M : Service S O R) : S → List (O × R) → S → Prop
  | nil (s : S) : Trace M s [] s
  | cons (s t u : S) (o : O) (r : R) (log : List (O × R)) :
      M.step s o r t → Trace M t log u → Trace M s ((o, r) :: log) u

/-- The service whose clients also keep to `C`. -/
def restrict (M : Service S O R) (C : S → O → Prop) : Service S O R where
  step := fun s o r t => C s o ∧ M.step s o r t

/-- If the steps of `M` can be followed in `N`, so can its runs, with the same
    requests and replies. -/
theorem Trace.simulate {M : Service S O R} {N : Service T O R} {Rep : S → T → Prop}
    (hstep : ∀ s a o r t, Rep s a → M.step s o r t → ∃ b, N.step a o r b ∧ Rep t b)
    {s t : S} {log : List (O × R)} (h : M.Trace s log t) {a : T} (ha : Rep s a) :
    ∃ b, N.Trace a log b ∧ Rep t b := by
  induction h generalizing a with
  | nil s => exact ⟨a, Trace.nil a, ha⟩
  | cons s t u o r log hfirst _ ih =>
    rcases hstep s a o r t ha hfirst with ⟨b, hb, hrep⟩
    rcases ih hrep with ⟨c, hc, hrep'⟩
    exact ⟨c, Trace.cons a b c o r log hb hc, hrep'⟩

end Service

end SysRust
