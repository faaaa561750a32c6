import Mathlib.Data.List.TakeWhile
import SysRust.Core.Rc.Sym
import SysRust.Lib.Machine

/-!
# Scopes

The symbol table is one array whose symbols are stamped with a depth. It stands
for a stack of scopes, innermost first, each with its symbols newest first: the
array is their concatenation, and the symbols of a scope are stamped with the
number of scopes around it. Popping while the depth is the current one removes
the innermost scope and stops there, since everything below has a lower depth.

## Main definitions

* `Call`, `Session`, `sessions`: Calls of the table's functions beside the
  stack of scopes they are meant to keep.
* `Rep`: The table stands for the scopes.
* `Within`: Calls between entering a scope and leaving it.

## Theorems

* `rep_reachable`: The table stands for the scopes throughout.
* `within_scopes`: What happens within a scope leaves those around it alone.
* `lookup_open_scopes`: A lookup finds the newest symbol of the open scopes.
-/

namespace SysRust.Rc.Scopes

open List

/-- The calls that change the table. Of a symbol to add only what `add` is
    given counts. -/
inductive Call where
  | init (builtins : List (List UInt8 × BitVec 32))
  | add (v : Symbol)
  | enterScope
  | leaveScope

/-- Declare a symbol in the innermost scope. -/
def declare (v : Symbol) : List (List Symbol) → List (List Symbol)
  | [] => []
  | scope :: rest => ({ v with scopeDepth := rest.length, structName := [] } :: scope) :: rest

/-- A kernel function. -/
def builtin (b : List UInt8 × BitVec 32) : Symbol where
  name := b.1
  kind := .kernFunc
  type := .int
  isPtr := false
  offset := 0
  addr := b.2
  scopeDepth := 0
  structName := []

/-- The table and the open scopes, innermost first. -/
structure Session where
  table : Symbols
  scopes : List (List Symbol)

/-- A table with the kernel's functions in the outermost scope. -/
def started (builtins : List (List UInt8 × BitVec 32)) : Session where
  table := Symbols.init builtins
  scopes := builtins.foldl (fun scopes b => declare (builtin b) scopes) [[]]

def serve (s : Session) : Call → Session
  | .init builtins => started builtins
  | .add v => ⟨s.table.add v.name v.kind v.type v.isPtr v.offset v.addr, declare v s.scopes⟩
  | .enterScope => ⟨s.table.enterScope, [] :: s.scopes⟩
  | .leaveScope => ⟨s.table.leaveScope, s.scopes.tail⟩

/-- Names fit their field, the table has room, and the outermost scope stays
    open. -/
def Allowed (s : Session) : Call → Prop
  | .init builtins => builtins.length ≤ MAX_SYMBOLS ∧ ∀ b ∈ builtins, b.1.length ≤ 31
  | .add v => v.name.length ≤ 31 ∧ s.scopes.flatten.length < MAX_SYMBOLS
  | .enterScope => True
  | .leaveScope => 1 < s.scopes.length

def sessions : Machine Session Call where
  start := fun s => ∃ builtins, Allowed s (.init builtins) ∧ s = started builtins
  allows := Allowed
  exec := fun s c => some (serve s c)

instance (s : Session) : ∀ c, Decidable (sessions.allows s c)
  | .init _ => inferInstanceAs (Decidable (_ ∧ _))
  | .add _ => inferInstanceAs (Decidable (_ ∧ _))
  | .enterScope => inferInstanceAs (Decidable True)
  | .leaveScope => inferInstanceAs (Decidable (_ < _))

/-- Every symbol is stamped with the number of scopes around its own. -/
def Stamped : List (List Symbol) → Prop
  | [] => True
  | scope :: rest => (∀ v ∈ scope, v.scopeDepth = rest.length) ∧ Stamped rest

structure Rep (t : Symbols) (scopes : List (List Symbol)) : Prop where
  symbols : t.symbols = scopes.flatten
  depth : scopes.length = t.scope + 1
  stamped : Stamped scopes

variable {t : Symbols} {scopes : List (List Symbol)} {v : Symbol} {s : Session}

theorem stamped_lt (h : Stamped scopes) (hv : v ∈ scopes.flatten) :
    v.scopeDepth < scopes.length := by
  induction scopes with
  | nil => cases hv
  | cons scope rest ih =>
    rw [length_cons]
    rcases mem_append.mp hv with hv | hv
    · rw [h.1 v hv]
      exact Nat.lt_succ_self _
    · exact Nat.lt_succ_of_lt (ih h.2 hv)

theorem Rep.add (h : Rep t scopes) (hname : v.name.length ≤ 31)
    (hroom : scopes.flatten.length < MAX_SYMBOLS) :
    Rep (t.add v.name v.kind v.type v.isPtr v.offset v.addr) (declare v scopes) ∧
      (declare v scopes).flatten.length = scopes.flatten.length + 1 := by
  rw [Symbols.add, if_neg (by rw [h.symbols]; omega), cut, take_of_length_le hname]
  cases scopes with
  | nil => exact absurd h.depth (Nat.succ_ne_zero _).symm
  | cons scope rest =>
    have hdepth : t.scope = rest.length := (Nat.succ.inj h.depth).symm
    refine ⟨⟨?_, h.depth, ?_, h.stamped.2⟩, rfl⟩
    · rw [hdepth, h.symbols]
      rfl
    · exact forall_mem_cons.mpr ⟨rfl, h.stamped.1⟩

theorem rep_started {builtins : List (List UInt8 × BitVec 32)}
    (hb : Allowed s (.init builtins)) : Rep (started builtins).table (started builtins).scopes := by
  suffices hfold : ∀ (bs : List (List UInt8 × BitVec 32)) (t : Symbols) scopes, Rep t scopes →
      scopes.flatten.length + bs.length ≤ MAX_SYMBOLS → (∀ b ∈ bs, b.1.length ≤ 31) →
      Rep (bs.foldl (fun t b => t.add b.1 .kernFunc .int false 0 b.2) t)
        (bs.foldl (fun scopes b => declare (builtin b) scopes) scopes) by
    refine hfold builtins _ [[]] ⟨rfl, rfl, forall_mem_nil _, trivial⟩ ?_ hb.2
    exact (Nat.zero_add _).symm ▸ hb.1
  intro bs
  induction bs with
  | nil => exact fun _ _ h _ _ => h
  | cons b bs ih =>
    intro t scopes h hlen hname
    rw [length_cons] at hlen
    obtain ⟨hadd, hcount⟩ := h.add (v := builtin b) (hname b mem_cons_self) (by omega)
    refine ih _ _ hadd ?_ (fun b' hb' => hname b' (mem_cons_of_mem b hb'))
    show (declare (builtin b) scopes).flatten.length + bs.length ≤ MAX_SYMBOLS
    omega

/-- Popping the symbols of the current depth leaves the scopes around it. -/
theorem Rep.leaveScope (h : Rep t scopes) (hopen : 1 < scopes.length) :
    Rep t.leaveScope scopes.tail := by
  cases scopes with
  | nil => cases hopen
  | cons scope rest =>
    have hdepth : t.scope = rest.length := (Nat.succ.inj h.depth).symm
    have hlen : 0 < rest.length := Nat.lt_of_succ_lt_succ hopen
    refine ⟨?_, ?_, h.stamped.2⟩
    · simp only [Symbols.leaveScope]
      rw [h.symbols, flatten_cons, dropWhile_append_of_pos, List.tail_cons,
        dropWhile_eq_self_iff]
      · intro hpos hhead
        have hlt := stamped_lt h.stamped.2 (getElem_mem hpos)
        rw [beq_iff_eq] at hhead
        omega
      · intro v hv
        rw [beq_iff_eq, hdepth, h.stamped.1 v hv]
    · show rest.length = t.scope - 1 + 1
      omega

theorem rep_serve {c : Call} (h : Rep s.table s.scopes) (hc : Allowed s c) :
    Rep (serve s c).table (serve s c).scopes := by
  cases c with
  | init builtins => exact rep_started hc
  | add v => exact (h.add hc.1 hc.2).1
  | enterScope =>
    exact ⟨h.symbols, congrArg Nat.succ h.depth, forall_mem_nil _, h.stamped⟩
  | leaveScope => exact h.leaveScope hc

theorem rep_reachable (hs : sessions.Reachable s) : Rep s.table s.scopes := by
  refine Machine.Reachable.invariant (fun s => Rep s.table s.scopes) ?_ ?_ hs
  · rintro s ⟨builtins, hb, rfl⟩
    exact rep_started hb
  · rintro s t c h hc he
    rw [← Option.some.inj he]
    exact rep_serve h hc

/-- Calls that leave as many scopes as they enter, `d` of them entered
    before, and no other. -/
def Within : Nat → List Call → Prop
  | d, [] => d = 0
  | _, .init _ :: _ => False
  | d, .add _ :: cs => Within d cs
  | d, .enterScope :: cs => Within (d + 1) cs
  | d, .leaveScope :: cs => 0 < d ∧ Within (d - 1) cs

theorem within_scopes {cs : List Call} {d : Nat} {t : Session} {l : List (List Symbol)}
    (hcs : Within d cs) (hs : s.scopes = l ++ scopes) (hd : l.length = d + 1)
    (hrun : sessions.run s (cs ++ [.leaveScope]) = some t) : t.scopes = scopes := by
  induction cs generalizing s d l with
  | nil =>
    rcases Machine.run_cons.mp hrun with ⟨u, _, hu, hrest⟩
    rw [← Option.some.inj hrest, ← Option.some.inj hu]
    rcases length_eq_one_iff.mp (hd.trans (congrArg Nat.succ hcs)) with ⟨scope, rfl⟩
    exact congrArg List.tail hs
  | cons c cs ih =>
    rcases Machine.run_cons.mp hrun with ⟨u, _, hu, hrest⟩
    have hserve : u.scopes = (serve s c).scopes := by rw [← Option.some.inj hu]
    cases l with
    | nil => cases hd
    | cons scope l =>
      cases c with
      | init => exact hcs.elim
      | add v =>
        simp only [serve, hs, cons_append, declare] at hserve
        exact ih (l := _ :: l) hcs hserve hd hrest
      | enterScope =>
        simp only [serve, hs] at hserve
        exact ih (l := [] :: scope :: l) hcs hserve (congrArg Nat.succ hd) hrest
      | leaveScope =>
        simp only [serve, hs, cons_append, List.tail_cons] at hserve
        rcases hcs with ⟨hpos, hcs⟩
        rw [length_cons] at hd
        exact ih hcs hserve (by omega) hrest

/-- After all calls a lookup returns the newest symbol of that name in the
    scopes still open, and nothing exactly if there is none; and leaving a
    scope brings back the lookups from before it was entered. -/
theorem lookup_open_scopes (hs : sessions.Reachable s) :
    (∀ name, s.table.lookup name = s.scopes.flatten.find? (fun v => v.name == name)) ∧
      ∀ cs t, Within 0 cs → sessions.run s (.enterScope :: cs ++ [.leaveScope]) = some t →
        ∀ name, t.table.lookup name = s.table.lookup name := by
  have hlookup : ∀ {s : Session}, sessions.Reachable s → ∀ name,
      s.table.lookup name = s.scopes.flatten.find? (fun v => v.name == name) := by
    intro s hs name
    rw [Symbols.lookup, (rep_reachable hs).symbols]
  refine ⟨hlookup hs, fun cs t hcs hrun name => ?_⟩
  have hback : t.scopes = s.scopes := by
    rcases Machine.run_cons.mp hrun with ⟨u, _, hu, hrest⟩
    refine within_scopes (l := [[]]) hcs ?_ rfl hrest
    rw [← Option.some.inj hu]
    rfl
  rw [hlookup (Machine.reachable_run hs hrun), hlookup hs, hback]

/-- An inner `x` hides the outer one until its scope is left. -/
theorem lookup_open_scopes_shadowed :
    ∃ s t x y, sessions.Reachable s ∧ s.table.lookup [0x78] = some x ∧ x.offset = -4 ∧
      sessions.run s [.enterScope, .add y, .leaveScope] = some t ∧ y.name = [0x78] ∧
      (∀ name, s.table.lookup name = s.scopes.flatten.find? (fun v => v.name == name)) ∧
      ∀ name, t.table.lookup name = s.table.lookup name := by
  let x : Symbol := { builtin ([0x78], 0) with kind := .loc, offset := -4 }
  let y : Symbol := { x with offset := -8 }
  have hstart : sessions.Reachable (started []) :=
    Machine.Reachable.start _ ⟨[], ⟨by decide, forall_mem_nil _⟩, rfl⟩
  have hs : sessions.Reachable (serve (started []) (.add x)) :=
    Machine.Reachable.step _ _ (.add x) hstart (by decide) rfl
  have hmain := lookup_open_scopes hs
  have hrun : sessions.run (serve (started []) (.add x)) [.enterScope, .add y, .leaveScope] =
      some (serve (serve (serve (serve (started []) (.add x)) .enterScope) (.add y)) .leaveScope) :=
    rfl
  exact ⟨_, _, x, y, hs, rfl, rfl, hrun, rfl, hmain.1, hmain.2 [.add y] _ rfl hrun⟩

end SysRust.Rc.Scopes
