import Mathlib.Data.List.Basic
import Mathlib.Data.Option.Basic

/-!
# Machines and Their Runs

A component that serves requests, and everything that can happen to it. A
`Machine` says where a run may start, which requests its clients are allowed
to make in a state, and what serving a request does. Serving returns an
`Option`: `none` is a component that does not come back, and `Progresses`
says that this never happens.

A safety result has the form "every reachable state is good". It is proved
with `Reachable.invariant`, from the start states and one step. Where the
component only behaves under a condition on the requests, `restrict` is the
machine whose clients keep to that condition, and `Reachable.of_restrict`
says its runs are runs of the original.

## Main definitions

* `Machine`: Start states, allowed requests and their effect.
* `Reachable`: The states of all runs.
* `run`: Serve a list of requests in turn.
* `restrict`: The same machine under more careful clients.
* `Progresses`: Every allowed request is served.
* `Throughout`: A property of all states of one run.
* `Keeps`: A condition on all requests of one run.

## Theorems

* `Reachable.invariant`: What holds at the start and survives every step
  holds throughout.
* `Reachable.of_restrict`: A careful run is a run.
* `run_cons`: Taking a run apart.
* `reachable_run`: Serving allowed requests stays reachable.
* `reachable_run_restrict`: So does serving requests that are always careful.
* `throughout_cons`, `keeps_cons`: One step of a run.
* `throughout_iff_keeps_under`, `throughout_iff_keeps`: A condition that decides
  single steps decides runs.
-/

namespace SysRust

/-- A component that serves requests. -/
structure Machine (S O : Type) where
  start : S → Prop
  allows : S → O → Prop
  exec : S → O → Option S

namespace Machine

variable {S O : Type}

/-- The states that some run passes through. -/
inductive Reachable (M : Machine S O) : S → Prop
  | start (s : S) : M.start s → Reachable M s
  | step (s t : S) (o : O) : Reachable M s → M.allows s o → M.exec s o = some t → Reachable M t

/-- Every request a client may make in a reachable state is served. -/
def Progresses (M : Machine S O) : Prop :=
  ∀ s, M.Reachable s → ∀ o, M.allows s o → ∃ t, M.exec s o = some t

/-- The machine whose clients also keep to `C`. -/
def restrict (M : Machine S O) (C : S → O → Prop) : Machine S O where
  start := M.start
  allows := fun s o => M.allows s o ∧ C s o
  exec := M.exec

variable {M : Machine S O} {s t : S} {C : S → O → Prop} {os : List O}

theorem Reachable.invariant (P : S → Prop) (h0 : ∀ s, M.start s → P s)
    (hstep : ∀ s t o, P s → M.allows s o → M.exec s o = some t → P t) (hs : M.Reachable s) :
    P s := by
  induction hs with
  | start s h => exact h0 s h
  | step s t o _ ha he ih => exact hstep s t o ih ha he

theorem Reachable.of_restrict (hs : (M.restrict C).Reachable s) : M.Reachable s := by
  induction hs with
  | start s h => exact Reachable.start s h
  | step s t o _ ha he ih => exact Reachable.step s t o ih ha.1 he

/-- Serve the requests in turn, stopping at the first that is not allowed or
    does not come back. -/
def run (M : Machine S O) [∀ s o, Decidable (M.allows s o)] : S → List O → Option S
  | s, [] => some s
  | s, o :: os => if M.allows s o then (M.exec s o).bind (fun t => run M t os) else none

/-- A run that goes through begins with an allowed request that is served. -/
theorem run_cons [∀ s o, Decidable (M.allows s o)] {o : O} : M.run s (o :: os) = some t ↔
      ∃ u, M.allows s o ∧ M.exec s o = some u ∧ M.run u os = some t := by
  rw [run]
  by_cases ha : M.allows s o
  · rw [if_pos ha, Option.bind_eq_some_iff]
    simp only [ha, true_and]
  · rw [if_neg ha]
    simp only [ha, false_and, exists_false, reduceCtorEq]

theorem reachable_run [∀ s o, Decidable (M.allows s o)] (hs : M.Reachable s)
    (h : M.run s os = some t) : M.Reachable t := by
  induction os generalizing s with
  | nil =>
    simp only [run, Option.some.injEq] at h
    exact h ▸ hs
  | cons o os ih =>
    rcases run_cons.mp h with ⟨u, ha, hu, hrest⟩
    exact ih (Reachable.step s u o hs ha hu) hrest

/-- Requests that keep to `C` in every state may be served under `C`. -/
theorem reachable_run_restrict [∀ s o, Decidable (M.allows s o)] (hC : ∀ o ∈ os, ∀ s, C s o)
    (hs : (M.restrict C).Reachable s) (h : M.run s os = some t) : (M.restrict C).Reachable t := by
  induction os generalizing s with
  | nil =>
    simp only [run, Option.some.injEq] at h
    exact h ▸ hs
  | cons o os ih =>
    rcases run_cons.mp h with ⟨u, ha, hu, hrest⟩
    have hstep := Reachable.step s u o hs ⟨ha, hC o List.mem_cons_self s⟩ hu
    exact ih (fun o' ho' => hC o' (List.mem_cons_of_mem o ho')) hstep hrest

/-- `P` holds in every state the run passes through. -/
def Throughout (M : Machine S O) [∀ s o, Decidable (M.allows s o)] (s : S) (os : List O)
    (P : S → Prop) : Prop :=
  ∀ pre post t, os = pre ++ post → M.run s pre = some t → P t

/-- Every request of the run meets `C` in the state it is made in. -/
def Keeps (M : Machine S O) [∀ s o, Decidable (M.allows s o)] (s : S) (os : List O)
    (C : S → O → Prop) : Prop :=
  ∀ pre o post t, os = pre ++ o :: post → M.run s pre = some t → C t o

section Cons

variable [∀ s o, Decidable (M.allows s o)] {P : S → Prop} {v : S} {o : O}

theorem run_tail (hv : M.exec s o = some v) (h : M.run s (o :: os) = some t) :
    M.run v os = some t := by
  rcases run_cons.mp h with ⟨v', _, hv', h'⟩
  rwa [Option.some.inj (hv.symm.trans hv')]

theorem keeps_nil : M.Keeps s [] C :=
  fun _ _ _ _ hos _ => absurd (congrArg List.length hos) (by simp)

variable (ha : M.allows s o) (hv : M.exec s o = some v)

include ha hv

theorem throughout_cons : M.Throughout s (o :: os) P ↔ P s ∧ M.Throughout v os P := by
  constructor
  · intro h
    refine ⟨h [] _ s rfl rfl, fun pre post u hos hu => ?_⟩
    exact h (o :: pre) post u (by rw [hos, List.cons_append]) (run_cons.mpr ⟨v, ha, hv, hu⟩)
  · rintro ⟨h0, h⟩ pre post u hos hu
    cases pre with
    | nil => exact Option.some.inj hu ▸ h0
    | cons p pre =>
      obtain ⟨rfl, hos'⟩ := List.cons.inj hos
      exact h pre post u hos' (run_tail hv hu)

theorem keeps_cons : M.Keeps s (o :: os) C ↔ C s o ∧ M.Keeps v os C := by
  constructor
  · intro h
    refine ⟨h [] o os s rfl rfl, fun pre o' post u hos hu => ?_⟩
    exact h (o :: pre) o' post u (by rw [hos, List.cons_append]) (run_cons.mpr ⟨v, ha, hv, hu⟩)
  · rintro ⟨h0, h⟩ pre o' post u hos hu
    cases pre with
    | nil => exact Option.some.inj hu ▸ (List.cons.inj hos).1 ▸ h0
    | cons p pre =>
      obtain ⟨rfl, hos'⟩ := List.cons.inj hos
      exact h pre o' post u hos' (run_tail hv hu)

end Cons

/-- An invariant `Q` under which `C` decides whether the next state is good,
    and which survives as long as the requests meet `C`: a run is good
    throughout exactly if all its requests meet `C`. -/
theorem throughout_iff_keeps_under [∀ s o, Decidable (M.allows s o)] {P Q : S → Prop} (hQ : Q s)
    (h0 : P s) (hstep : ∀ u v o, Q u → M.allows u o → M.exec u o = some v →
      (P v ↔ C u o) ∧ (C u o → Q v)) (hrun : M.run s os = some t) :
    M.Throughout s os P ↔ M.Keeps s os C := by
  -- Both sides speak of the steps from the front, and `Q` is there as long as
  -- the steps behind us met `C`.
  induction os generalizing s with
  | nil =>
    refine ⟨fun _ => keeps_nil, fun _ pre post u hos hu => ?_⟩
    rw [(List.append_eq_nil_iff.mp hos.symm).1, run, Option.some.injEq] at hu
    exact hu ▸ h0
  | cons o os ih =>
    rcases run_cons.mp hrun with ⟨v, ha, hv, hrest⟩
    obtain ⟨hiff, hkeep⟩ := hstep s v o hQ ha hv
    rw [throughout_cons ha hv, keeps_cons ha hv]
    constructor
    · rintro ⟨_, hP⟩
      have hC : C s o := hiff.mp (hP [] os v rfl rfl)
      exact ⟨hC, (ih (hkeep hC) (hiff.mpr hC) hrest).mp hP⟩
    · rintro ⟨hC, hK⟩
      exact ⟨h0, (ih (hkeep hC) (hiff.mpr hC) hrest).mpr hK⟩

/-- If in every good state `C` decides whether the next one is good, then a
    run is good throughout exactly if all its requests meet `C`. -/
theorem throughout_iff_keeps [∀ s o, Decidable (M.allows s o)] {P : S → Prop} (hs : M.start s)
    (h0 : P s) (hstep : ∀ u v o, M.Reachable u → M.exec u o = some v → P u → (P v ↔ C u o))
    (hrun : M.run s os = some t) : M.Throughout s os P ↔ M.Keeps s os C := by
  have hinv : ∀ u v o, M.Reachable u ∧ P u → M.allows u o → M.exec u o = some v →
      (P v ↔ C u o) ∧ (C u o → M.Reachable v ∧ P v) := by
    intro u v o hu ha hv
    have hiff := hstep u v o hu.1 hv hu.2
    exact ⟨hiff, fun hC => ⟨Reachable.step u v o hu.1 ha hv, hiff.mpr hC⟩⟩
  exact throughout_iff_keeps_under ⟨Reachable.start s hs, h0⟩ h0 hinv hrun

end Machine

end SysRust
