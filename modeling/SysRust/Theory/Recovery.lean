import SysRust.Core.Recovery
import SysRust.Theory.Threads

/-!
# Results of Protected Programs

As long as no call of `run_protected` starts while another one has not
returned, and the numbers of the threads are not used up, every call returns
the result of its own program. The shared variables then belong to one call
at a time, and what they hold follows from what the child is doing; this is
the invariant.

A program that calls `run_protected` itself breaks it. The flag its child
sets is the flag that the outer call is waiting for, and the outer call
returns the inner result while its own child is still running.

The threads here and the thread table of `thread.rs` go in step: a call that
creates a thread, and a thread that ends, are `create` and `exit` there.

## Main definitions

* `Right`: A call has returned what its program returned.
* `Alone`: No call starts while another one is under way, and there are numbers
  left for threads.
* `Settled`: A thread that will not touch the shared variables any more.
* `Agrees`: What the shared variables hold for the child of a call.
* `Holds`: The thread table holds the live threads under their numbers.

## Theorems

* `isAlive_tidOf`: A number stands for one thread.
* `inv_exec`: A step keeps the invariant.
* `right_reachable`: Every call returns its own result.
* `holds_create`, `holds_exit`, `holds_exec`: The thread table after a step.
* `isAlive_holds`: The two tests of a thread agree.
* `nested_result`: A nested call does not.
-/

namespace SysRust.Recovery

/-- The call has returned after its child finished, with its result, or
    after the child was killed. -/
def Right (r : Returned) : Prop :=
  match r.child with
  | none => r.value = -99
  | some (.exiting p v) => p = r.entry ∧ r.value = v
  | some (.finished p v) => p = r.entry ∧ r.value = v
  | some (.killed p) => p = r.entry ∧ r.value = -99
  | _ => False

/-- The thread is in a call of `run_protected`. -/
def inCall : Activity → Bool
  | .waiting _ _ => true
  | _ => false

def isCall : Act → Bool
  | .call _ => true
  | _ => false

/-- No call starts while another one has not returned, and the number of the
    next thread is not negative. -/
def Alone (s : Recovery) (o : Nat × Act) : Prop :=
  s.created < 2 ^ 31 ∧ (isCall o.2 = true → ∀ j < s.created, inCall (s.threads j) = false)

instance (s : Recovery) (o : Nat × Act) : Decidable (Alone s o) :=
  inferInstanceAs (Decidable (_ ∧ (_ → _)))

/-- The thread will not touch the shared variables any more. -/
def Settled : Activity → Prop
  | .exiting _ _ => True
  | .finished _ _ => True
  | .killed _ => True
  | _ => False

/-- What the shared variables hold while the child of a call for `entry` is
    doing this. -/
def Agrees (s : Recovery) (entry : Nat) : Activity → Prop
  | .wrapper => s.childEntry = entry ∧ s.childResult = -99 ∧ s.childDone = 0
  | .program p => p = entry ∧ s.childResult = -99 ∧ s.childDone = 0
  | .storing p _ => p = entry ∧ s.childResult = -99 ∧ s.childDone = 0
  | .signalling p v => p = entry ∧ s.childResult = v ∧ s.childDone = 0
  | .exiting p v => p = entry ∧ s.childResult = v
  | .finished p v => p = entry ∧ s.childResult = v
  | .killed p => p = entry ∧ s.childResult = -99 ∧ s.childDone = 0
  | _ => False

/-- All threads but the shell and `t` have settled. -/
def Quiet (s : Recovery) (t : Nat) : Prop :=
  ∀ j, j ≠ 0 → j ≠ t → j < s.created → Settled (s.threads j)

/-- The call has a child, and the variables are theirs. -/
structure Child (s : Recovery) (entry tid : Nat) : Prop where
  pos : tid ≠ 0
  lt : tid < s.created
  quiet : Quiet s tid
  agrees : Agrees s entry (s.threads tid)

/-- What holds while a call of the shell is under way. -/
def Stage (s : Recovery) (call : Wait) : Prop :=
  match call.pc with
  | .setEntry => Quiet s 0
  | .clearResult => Quiet s 0 ∧ s.childEntry = call.entry
  | .clearDone => Quiet s 0 ∧ s.childEntry = call.entry ∧ s.childResult = -99
  | .create => Quiet s 0 ∧ s.childEntry = call.entry ∧ s.childResult = -99 ∧ s.childDone = 0
  | .checkDone tid => Child s call.entry tid
  | .checkAlive tid => Child s call.entry tid
  | .readResult tid => Child s call.entry tid ∧ Settled (s.threads tid)

structure Inv (s : Recovery) : Prop where
  pos : 0 < s.created
  few : s.created ≤ 2 ^ 31
  absent : ∀ j, s.created ≤ j → s.threads j = .absent
  shell : (∃ p, s.threads 0 = .program p ∧ Quiet s 0) ∨
    (∃ p call, s.threads 0 = .waiting p call ∧ Stage s call)
  right : ∀ r ∈ s.returns, Right r

theorem inv_boot : Inv boot where
  pos := Nat.one_pos
  few := by decide
  absent := fun j hj => if_neg (by have : 1 ≤ j := hj; omega)
  shell := Or.inl ⟨0, rfl, fun j h0 _ hj => by have : j < 1 := hj; omega⟩
  right := List.forall_mem_nil _

/-! ### Steps of the other threads -/

theorem threads_goOn_self (i : Nat) (a : Activity) (s : Recovery) : (goOn i a s).threads i = a := by
  simp only [goOn, Function.update_self]

variable {i entry p x tid : Nat} {a : Activity} {s t u : Recovery} {v : BitVec 32} {call : Wait}

theorem threads_goOn_ne {j : Nat} {a : Activity} {s : Recovery} (h : j ≠ i) :
    (goOn i a s).threads j = s.threads j := by
  simp only [goOn, Function.update_of_ne h]

/-- Whether the variables agree does not depend on the threads. -/
theorem agrees_congr (he : t.childEntry = s.childEntry) (hr : t.childResult = s.childResult)
    (hd : t.childDone = s.childDone) (h : Agrees s entry a) : Agrees t entry a := by
  cases a <;> simp only [Agrees, he, hr, hd] at h ⊢ <;> exact h

/-- A thread that has settled can only exit. -/
theorem settled_step {a : Act} (hs : Settled (s.threads i)) (h : exec s (i, a) = some t) :
    ∃ p v, s.threads i = .exiting p v ∧ t = goOn i (.finished p v) s := by
  cases hi : s.threads i <;> rw [hi] at hs <;> simp only [Settled] at hs <;>
    cases a <;> simp only [exec, hi, Option.some.injEq, reduceCtorEq] at h
  exact ⟨_, _, rfl, h.symm⟩

theorem quiet_settle (h : Quiet s x) : Quiet (goOn i (.finished p v) s) x := by
  intro j h0 hx hlt
  by_cases hj : j = i
  · rw [hj, threads_goOn_self]
    trivial
  · rw [threads_goOn_ne hj]
    exact h j h0 hx hlt

theorem child_settle (hi : s.threads i = .exiting p v) (h : Child s entry tid) :
    Child (goOn i (.finished p v) s) entry tid where
  pos := h.pos
  lt := h.lt
  quiet := quiet_settle h.quiet
  agrees := by
    by_cases ht : tid = i
    · have := h.agrees
      rw [ht, hi] at this
      rw [ht, threads_goOn_self]
      exact this
    · rw [threads_goOn_ne ht]
      exact agrees_congr rfl rfl rfl h.agrees

/-- An exit does not matter to a call. -/
theorem stage_settle (hi : s.threads i = .exiting p v) (h : Stage s call) :
    Stage (goOn i (.finished p v) s) call := by
  rcases call with ⟨entry, pc⟩
  cases pc with
  | setEntry => exact quiet_settle h
  | clearResult | clearDone | create => exact ⟨quiet_settle h.1, h.2⟩
  | checkDone | checkAlive => exact child_settle hi h
  | readResult tid =>
    refine ⟨child_settle hi h.1, ?_⟩
    by_cases ht : tid = i
    · rw [ht, threads_goOn_self]
      trivial
    · rw [threads_goOn_ne ht]
      exact h.2

/-- The child itself takes a step. -/
theorem child_step {a : Act} (h : Child s entry tid) (ha : ∀ e, a ≠ .call e)
    (he : exec s (tid, a) = some t) :
    Child t entry tid ∧ (∀ j, j ≠ tid → t.threads j = s.threads j) ∧ t.created = s.created ∧
      t.returns = s.returns := by
  have hagr := h.agrees
  have hrest (b : Activity) (u : Recovery) (hb : Agrees u entry b)
      (hthreads : u.threads = s.threads) (hid : u.created = s.created)
      (hret : u.returns = s.returns) :
      Child (goOn tid b u) entry tid ∧
        (∀ j, j ≠ tid → (goOn tid b u).threads j = s.threads j) ∧
        (goOn tid b u).created = s.created ∧ (goOn tid b u).returns = s.returns := by
    refine ⟨⟨h.pos, hid ▸ h.lt, fun j h0 hj hlt => ?_, ?_⟩, fun j hj => ?_, hid, hret⟩
    · rw [threads_goOn_ne hj, hthreads]
      exact h.quiet j h0 hj (hid ▸ hlt)
    · rw [threads_goOn_self]
      exact agrees_congr rfl rfl rfl hb
    · rw [threads_goOn_ne hj, hthreads]
  cases hi : s.threads tid <;> rw [hi] at hagr <;> cases a <;>
    simp only [exec, hi, h.pos, if_false, Option.some.injEq, reduceCtorEq] at he
  case wrapper.go =>
    subst he
    exact hrest _ s ⟨hagr.1, hagr.2⟩ rfl rfl rfl
  case program.call e => exact absurd rfl (ha e)
  case program.finish | program.fault | exiting.go =>
    subst he
    exact hrest _ s hagr rfl rfl rfl
  case waiting.go => exact absurd hagr id
  case storing.go p v ok =>
    subst he
    exact hrest _ { s with childResult := v } ⟨hagr.1, rfl, hagr.2.2⟩ rfl rfl rfl
  case signalling.go p v ok =>
    subst he
    exact hrest _ { s with childDone := 1 } ⟨hagr.1, hagr.2.1⟩ rfl rfl rfl

/-- A thread that exists. -/
theorem lt_of_exec {a : Act} (h : Inv s) (he : exec s (i, a) = some t) : i < s.created := by
  by_contra hlt
  have := h.absent i (by omega)
  cases a <;> simp only [exec, this, reduceCtorEq] at he

/-- A step of a thread other than the shell. -/
theorem inv_other {a : Act} (h : Inv s) (h0 : i ≠ 0) (halone : Alone s (i, a))
    (he : exec s (i, a) = some t) : Inv t := by
  have hlt := lt_of_exec h he
  have hsettle (hs : Settled (s.threads i)) : Inv t := by
    rcases settled_step hs he with ⟨p, v, hi, rfl⟩
    have hzero := threads_goOn_ne (a := .finished p v) (s := s) (Ne.symm h0)
    refine ⟨h.pos, h.few, fun j hj => ?_, ?_, h.right⟩
    · rw [threads_goOn_ne (by have : s.created ≤ j := hj; omega)]
      exact h.absent j hj
    · rw [hzero]
      rcases h.shell with ⟨q, hq, hquiet⟩ | ⟨q, call, hq, hst⟩
      · exact Or.inl ⟨q, hq, quiet_settle hquiet⟩
      · exact Or.inr ⟨q, call, hq, stage_settle hi hst⟩
  rcases h.shell with ⟨q, hq, hquiet⟩ | ⟨q, call, hq, hst⟩
  · exact hsettle (hquiet i h0 h0 hlt)
  -- The shell waits, so this thread does not start a call.
  have hcall (e : Nat) : a ≠ .call e := by
    rintro rfl
    have := halone.2 rfl 0 h.pos
    rw [hq] at this
    exact Bool.noConfusion this
  have hchild {tid : Nat} (hc : Child s call.entry tid)
      (hstage : ∀ u, Child u call.entry tid → Stage u call) : Inv t := by
    by_cases hi : i = tid
    · subst hi
      rcases child_step hc hcall he with ⟨hc', hother, hid, hret⟩
      refine ⟨hid ▸ h.pos, hid ▸ h.few, fun j hj => ?_, Or.inr ⟨q, call, ?_, hstage t hc'⟩,
        hret ▸ h.right⟩
      · rw [hid] at hj
        rw [hother j (by omega)]
        exact h.absent j hj
      · rw [hother 0 (Ne.symm h0)]
        exact hq
    · exact hsettle (hc.quiet i h0 hi hlt)
  rcases call with ⟨entry, pc⟩
  cases pc with
  | setEntry => exact hsettle (hst i h0 h0 hlt)
  | clearResult | clearDone | create => exact hsettle (hst.1 i h0 h0 hlt)
  | checkDone | checkAlive => exact hchild hst (fun u hu => hu)
  | readResult tid =>
    by_cases hi : i = tid
    · exact hsettle (hi ▸ hst.2)
    · exact hsettle (hst.1.quiet i h0 hi hlt)

/-! ### Numbers of threads -/

variable {n : Nat}

theorem toNat_tidOf (h : n < 2 ^ 31) : (tidOf n).toNat = n := by
  rw [tidOf, BitVec.toNat_ofNat]
  omega

theorem toInt_tidOf (h : n < 2 ^ 31) : (tidOf n).toInt = n := by
  rw [BitVec.toInt_eq_toNat_of_lt (by rw [toNat_tidOf h]; omega), toNat_tidOf h]

/-- A number stands for one thread. -/
theorem isAlive_tidOf (hfew : s.created ≤ 2 ^ 31) (hn : n < s.created) :
    s.isAlive (tidOf n) = (s.threads n).isAlive := by
  rw [Bool.eq_iff_iff]
  simp only [isAlive, List.any_eq_true, List.mem_range, Bool.and_eq_true, beq_iff_eq]
  constructor
  · rintro ⟨j, hj, halive, hid⟩
    have hnat := congrArg BitVec.toNat hid
    rw [toNat_tidOf (by omega), toNat_tidOf (by omega)] at hnat
    exact hnat ▸ halive
  · exact fun halive => ⟨n, hn, halive, rfl⟩

/-! ### Steps of the shell -/

theorem quiet_goOn_zero (h : Quiet s x) : Quiet (goOn 0 a s) x := by
  intro j h0 hx hlt
  rw [threads_goOn_ne h0]
  exact h j h0 hx hlt

theorem child_goOn_zero (h : Child s entry tid) : Child (goOn 0 a s) entry tid where
  pos := h.pos
  lt := h.lt
  quiet := quiet_goOn_zero h.quiet
  agrees := by
    rw [threads_goOn_ne h.pos]
    exact agrees_congr rfl rfl rfl h.agrees

theorem absent_goOn_zero (hpos : 0 < s.created) (h : ∀ j, s.created ≤ j → s.threads j = .absent)
    (a : Activity) : ∀ j, s.created ≤ j → (goOn 0 a s).threads j = .absent := by
  intro j hj
  rw [threads_goOn_ne (by omega)]
  exact h j hj

/-- The flag is only set once the child has settled. -/
theorem settled_of_done (h : Agrees s entry a) (hd : s.childDone ≠ 0) : Settled a := by
  cases a <;> simp only [Agrees] at h <;> first
    | exact absurd h.2.2 hd
    | trivial

theorem settled_of_gone (h : Agrees s entry a) (ha : a.isAlive = false) : Settled a := by
  cases a <;> simp only [Agrees, Activity.isAlive, Bool.true_eq_false] at h ha <;> trivial

/-- What is read then is the result of the child. -/
theorem right_of_settled (h : Agrees s entry a) (hs : Settled a) :
    Right { entry := entry, child := some a, value := s.childResult } := by
  cases a <;> simp only [Settled] at hs
  case exiting | finished => exact ⟨h.1, h.2⟩
  case killed p => exact ⟨h.1, h.2.1⟩

/-- The call of the shell returns. -/
theorem inv_giveBack (h : Inv s) {child : Option Activity} (hquiet : Quiet s 0)
    (hr : Right { entry := entry, child := child, value := v }) :
    Inv (giveBack 0 p entry child v s) := by
  refine ⟨h.pos, h.few, absent_goOn_zero h.pos h.absent (.program p), Or.inl ⟨p, ?_, ?_⟩, ?_⟩
  · exact threads_goOn_self 0 (.program p) s
  · exact quiet_goOn_zero (a := .program p) hquiet
  · intro r hmem
    rcases List.mem_append.mp hmem with hmem | hmem
    · exact h.right r hmem
    · rw [List.mem_singleton.mp hmem]
      exact hr

/-- The call of the shell goes on. -/
theorem inv_next (h : Inv s) (hthreads : u.threads = s.threads) (hid : u.created = s.created)
    (hret : u.returns = s.returns) (hst : Stage (goOn 0 (.waiting p call) u) call) :
    Inv (goOn 0 (.waiting p call) u) := by
  refine ⟨hid ▸ h.pos, hid ▸ h.few, ?_, Or.inr ⟨p, call, threads_goOn_self _ _ _, hst⟩,
    hret ▸ h.right⟩
  refine absent_goOn_zero (hid ▸ h.pos) (fun j hj => ?_) _
  rw [hthreads]
  exact h.absent j (hid ▸ hj)

theorem quiet_of_eq (h : Quiet s x) (hthreads : u.threads = s.threads)
    (hid : u.created = s.created) : Quiet u x := by
  intro j h0 hx hlt
  rw [hthreads]
  exact h j h0 hx (hid ▸ hlt)

theorem inv_advance (h : Inv s) (hfew : s.created < 2 ^ 31)
    (hq : s.threads 0 = .waiting p call) (hst : Stage s call) (ok : Bool) :
    Inv (advance 0 p call ok s) := by
  rcases call with ⟨entry, pc⟩
  cases pc with
  | setEntry =>
    exact inv_next (u := { s with childEntry := entry }) h rfl rfl rfl
      ⟨quiet_goOn_zero (quiet_of_eq hst rfl rfl), rfl⟩
  | clearResult =>
    exact inv_next (u := { s with childResult := -99 }) h rfl rfl rfl
      ⟨quiet_goOn_zero (quiet_of_eq hst.1 rfl rfl), hst.2, rfl⟩
  | clearDone =>
    exact inv_next (u := { s with childDone := 0 }) h rfl rfl rfl
      ⟨quiet_goOn_zero (quiet_of_eq hst.1 rfl rfl), hst.2.1, hst.2.2, rfl⟩
  | create =>
    cases ok with
    | false => exact inv_giveBack h hst.1 rfl
    | true =>
      simp only [advance, toInt_tidOf hfew, Int.natCast_nonneg, not_lt_of_ge, if_false,
        Bool.true_eq_false]
      -- The new thread is the only one that has not settled.
      have hne : s.created ≠ 0 := by have := h.pos; omega
      refine ⟨Nat.succ_pos _, hfew, fun j hj => ?_, Or.inr ⟨p, _, threads_goOn_self _ _ _, ?_⟩,
        h.right⟩
      · have hj' : s.created + 1 ≤ j := hj
        show (goOn 0 _ (goOn s.created .wrapper s)).threads j = _
        rw [threads_goOn_ne (by omega), threads_goOn_ne (by omega)]
        exact h.absent j (by omega)
      · refine child_goOn_zero ⟨hne, Nat.lt_succ_self _, fun j h0 hj hlt => ?_, ?_⟩
        · show Settled ((goOn s.created .wrapper s).threads j)
          rw [threads_goOn_ne hj]
          have hlt' : j < s.created + 1 := hlt
          exact hst.1 j h0 h0 (by omega)
        · show Agrees _ _ ((goOn s.created .wrapper s).threads s.created)
          rw [threads_goOn_self]
          exact ⟨hst.2.1, hst.2.2.1, hst.2.2.2⟩
  | checkDone tid =>
    simp only [advance]
    by_cases hd : s.childDone = 0
    · rw [if_neg (not_not.mpr hd)]
      exact inv_next h rfl rfl rfl (child_goOn_zero hst)
    · rw [if_pos hd]
      refine inv_next h rfl rfl rfl ⟨child_goOn_zero hst, ?_⟩
      rw [threads_goOn_ne hst.pos]
      exact settled_of_done hst.agrees hd
  | checkAlive tid =>
    simp only [advance]
    rw [isAlive_tidOf h.few hst.lt]
    by_cases ha : (s.threads tid).isAlive = true
    · rw [if_pos ha]
      exact inv_next h rfl rfl rfl (child_goOn_zero hst)
    · rw [if_neg ha]
      refine inv_next h rfl rfl rfl ⟨child_goOn_zero hst, ?_⟩
      rw [threads_goOn_ne hst.pos]
      exact settled_of_gone hst.agrees (Bool.not_eq_true _ ▸ ha)
  | readResult tid =>
    refine inv_giveBack h (fun j h0 _ hlt => ?_) (right_of_settled hst.1.agrees hst.2)
    by_cases hj : j = tid
    · exact hj ▸ hst.2
    · exact hst.1.quiet j h0 hj hlt

theorem inv_shell {a : Act} (h : Inv s) (hfew : s.created < 2 ^ 31)
    (he : exec s (0, a) = some t) : Inv t := by
  rcases h.shell with ⟨p, hq, hquiet⟩ | ⟨p, call, hq, hst⟩
  · cases a <;> simp only [exec, hq, if_true, Option.some.injEq, reduceCtorEq] at he
    subst he
    exact inv_next h rfl rfl rfl (quiet_goOn_zero hquiet)
  · cases a <;> simp only [exec, hq, Option.some.injEq, reduceCtorEq] at he
    subst he
    exact inv_advance h hfew hq hst _

/-- A step keeps the invariant. -/
theorem inv_exec {o : Nat × Act} (h : Inv s) (ha : Alone s o) (he : exec s o = some t) : Inv t := by
  rcases o with ⟨i, a⟩
  by_cases hi : i = 0
  · subst hi
    exact inv_shell h ha.1 he
  · exact inv_other h hi ha he

/-- If no call starts while another one is under way and numbers are left,
    every call returns the result of its own program. -/
theorem right_reachable {s : Recovery} (h : (system.restrict Alone).Reachable s) :
    ∀ r ∈ s.returns, Right r := by
  have hinv : Inv s := by
    refine h.invariant Inv ?_ ?_
    · rintro s rfl
      exact inv_boot
    · intro s t o hs ha he
      exact inv_exec hs ha.2 he
  exact hinv.right

/-! ### The thread table -/

/-- The thread has been created and has not exited. -/
def Runs (s : Recovery) (j : Nat) : Prop := j < s.created ∧ (s.threads j).isAlive = true

/-- The thread table holds the live threads, each in a slot of its own and
    under its number. -/
structure Holds (s : Recovery) (t : Threads) (slot : Nat → Fin 32) : Prop where
  next : t.nextId = tidOf s.created
  live : ∀ i, Threads.Live t i ↔ ∃ j, Runs s j ∧ slot j = i
  apart : ∀ j k, Runs s j → Runs s k → slot j = slot k → j = k
  ids : ∀ j, Runs s j → (t.threads (slot j)).id = tidOf j

/-- What a step does to the thread table: a call creates a thread, and a
    thread that is done or killed calls `thread::exit`. -/
def tableOp (stack : Nat) (s : Recovery) (o : Nat × Act) : Option Threads.Op :=
  match s.threads o.1, o.2 with
  | .waiting _ call, .go _ => if call.pc = .create then some (.create stack) else none
  | .program _, .fault => some .exit
  | .exiting _ _, .go _ => some .exit
  | _, _ => none

section Table

open Function

variable {i j stack : Nat} {t : Threads} {slot : Nat → Fin 32}

theorem holds_boot (sp : Nat) : Holds boot (Threads.init (Threads.boot sp)) (fun _ => 0) where
  next := rfl
  live := by
    intro k
    have hrun : Runs boot 0 := ⟨Nat.one_pos, rfl⟩
    by_cases hk : k = 0
    · rw [hk]
      exact ⟨fun _ => ⟨0, hrun, rfl⟩, fun _ => (Threads.inv_start sp).zero⟩
    · refine ⟨fun hl => absurd ?_ hl, fun hrest => ?_⟩
      · simp only [Threads.init, Threads.boot, if_neg hk]
      · rcases hrest with ⟨_, _, h0⟩
        exact absurd h0.symm hk
  apart := by
    rintro j k ⟨hj, _⟩ ⟨hk, _⟩ _
    exact (Nat.lt_one_iff.mp hj).trans (Nat.lt_one_iff.mp hk).symm
  ids := by
    rintro j ⟨hj, _⟩
    rw [Nat.lt_one_iff.mp hj]
    rfl

/-- `thread::is_alive` on the table is the test of the live threads. -/
theorem isAlive_holds (h : Holds s t slot) (id : BitVec 32) :
    Threads.isAlive id t = s.isAlive id := by
  rw [Bool.eq_iff_iff]
  simp only [Threads.isAlive, isAlive, List.any_eq_true, Bool.and_eq_true, bne_iff_ne,
    beq_iff_eq, List.mem_finRange, List.mem_range, true_and]
  constructor
  · rintro ⟨k, hl, rfl⟩
    rcases (h.live k).mp hl with ⟨j, hj, rfl⟩
    exact ⟨j, hj.1, hj.2, (h.ids j hj).symm⟩
  · rintro ⟨j, hlt, halive, rfl⟩
    exact ⟨slot j, (h.live _).mpr ⟨j, ⟨hlt, halive⟩, rfl⟩, h.ids j ⟨hlt, halive⟩⟩

/-- Only the threads that run show in the table. -/
theorem holds_congr {u : Recovery} (h : Holds s t slot) (hid : u.created = s.created)
    (hruns : ∀ j, Runs u j ↔ Runs s j) : Holds u t slot := by
  refine ⟨hid ▸ h.next, fun k => ?_, fun j k hj hk => ?_, fun j hj => h.ids j ((hruns j).mp hj)⟩
  · simp only [hruns]
    exact h.live k
  · exact h.apart j k ((hruns j).mp hj) ((hruns k).mp hk)

/-- A call of the scheduler leaves the table in step. -/
theorem holds_yieldThread (h : Holds s t slot) : Holds s (Threads.yieldThread t) slot := by
  rcases Threads.schedule_keeps t with ⟨hnext, hkeeps⟩
  refine ⟨hnext.trans h.next, fun k => (hkeeps k).1.trans (h.live k), h.apart, fun j hj => ?_⟩
  exact (hkeeps (slot j)).2.trans (h.ids j hj)

theorem runs_goOn_ne (hji : j ≠ i) : Runs (goOn i a s) j ↔ Runs s j := by
  rw [Runs, threads_goOn_ne hji]
  exact Iff.rfl

/-- A thread stays alive, whatever becomes of the shared variables. -/
theorem holds_stay {u : Recovery} (h : Holds s t slot) (hi : (s.threads i).isAlive = true)
    (ha : a.isAlive = true) (hthreads : u.threads = (goOn i a s).threads)
    (hid : u.created = s.created) : Holds u t slot := by
  refine holds_congr h hid (fun j => ?_)
  rw [Runs, hid, hthreads]
  by_cases hji : j = i
  · rw [hji, threads_goOn_self, Runs, ha, hi]
  · exact runs_goOn_ne hji

/-- The running thread exits. -/
theorem holds_exit (h : Holds s t slot) (hi : Runs s i) (hcur : slot i = t.current)
    (ha : a.isAlive = false) : Holds (goOn i a s) (Threads.exit t) slot := by
  have hruns : ∀ j, Runs (goOn i a s) j ↔ j ≠ i ∧ Runs s j := by
    intro j
    by_cases hji : j = i
    · rw [hji, Runs, threads_goOn_self, ha]
      simp only [Bool.false_eq_true, and_false, ne_eq, not_true_eq_false, false_and]
    · rw [runs_goOn_ne hji]
      simp only [ne_eq, hji, not_false_eq_true, true_and]
  rcases Threads.exit_keeps t with ⟨hnext, hkeeps⟩
  refine ⟨hnext.trans h.next, fun k => ?_, fun j k hj hk => ?_, fun j hj => ?_⟩
  · rw [(hkeeps k).1, h.live]
    simp only [hruns]
    constructor
    · rintro ⟨hne, j, hj, rfl⟩
      exact ⟨j, ⟨fun hji => hne (hji ▸ hcur), hj⟩, rfl⟩
    · rintro ⟨j, ⟨hji, hj⟩, rfl⟩
      exact ⟨fun hc => hji (h.apart j i hj hi (hc.trans hcur.symm)), j, hj, rfl⟩
  · exact h.apart j k ((hruns j).mp hj).2 ((hruns k).mp hk).2
  · exact (hkeeps (slot j)).2.trans (h.ids j ((hruns j).mp hj).2)

/-- The thread that `create` adds. -/
def withChild (s : Recovery) : Recovery :=
  { goOn s.created .wrapper s with created := s.created + 1 }

theorem runs_withChild (s : Recovery) (j : Nat) :
    Runs (withChild s) j ↔ j = s.created ∨ Runs s j := by
  by_cases hj : j = s.created
  · rw [hj]
    exact ⟨fun _ => Or.inl rfl,
      fun _ => ⟨Nat.lt_succ_self _, by rw [withChild, threads_goOn_self]; rfl⟩⟩
  · simp only [Runs, withChild, threads_goOn_ne hj, hj, false_or]
    exact and_congr_left (fun _ => by omega)

/-- The next thread goes into a dead slot. -/
theorem holds_spawn (h : Holds s t slot) {k : Fin 32} (hdead : (t.threads k).state = .dead)
    (stack : Nat) : Holds (withChild s) (Threads.spawn k stack t) (update slot s.created k) := by
  have hold : ∀ j, Runs s j → j ≠ s.created ∧ slot j ≠ k := by
    intro j hj
    refine ⟨fun hc => absurd hj.1 (by omega), fun hc => ?_⟩
    exact (h.live k).mpr ⟨j, hj, hc⟩ hdead
  refine ⟨?_, fun i => ?_, fun i j hi hj => ?_, fun j hj => ?_⟩
  · show t.nextId + 1 = tidOf (s.created + 1)
    rw [h.next, tidOf, tidOf, BitVec.ofNat_add]
    rfl
  · simp only [runs_withChild]
    by_cases hik : i = k
    · rw [hik, Threads.Live, Threads.threads_spawn_self]
      exact ⟨fun _ => ⟨s.created, Or.inl rfl, update_self _ _ _⟩,
        fun _ => ThreadState.noConfusion⟩
    · rw [Threads.live_spawn_ne stack hik, h.live]
      constructor
      · rintro ⟨j, hj, rfl⟩
        exact ⟨j, Or.inr hj, update_of_ne (hold j hj).1 _ _⟩
      · rintro ⟨j, rfl | hj, hslot⟩
        · rw [update_self] at hslot
          exact absurd hslot.symm hik
        · rw [update_of_ne (hold j hj).1] at hslot
          exact ⟨j, hj, hslot⟩
  · intro hslot
    rcases (runs_withChild s i).mp hi with rfl | hi <;>
      rcases (runs_withChild s j).mp hj with rfl | hj
    · rfl
    · rw [update_self, update_of_ne (hold j hj).1] at hslot
      exact absurd hslot.symm (hold j hj).2
    · rw [update_self, update_of_ne (hold i hi).1] at hslot
      exact absurd hslot (hold i hi).2
    · rw [update_of_ne (hold i hi).1, update_of_ne (hold j hj).1] at hslot
      exact h.apart i j hi hj hslot
  · rcases (runs_withChild s j).mp hj with rfl | hj
    · rw [update_self, Threads.threads_spawn_self]
      exact h.next
    · rw [update_of_ne (hold j hj).1, Threads.threads_spawn_ne stack t (hold j hj).2]
      exact h.ids j hj

/-- `thread::create` fails, or adds the next thread under the number that it
    returns. -/
theorem holds_create (h : Holds s t slot) (stack : Nat) :
    (¬ (t.freeSlot ≠ none ∧ stack ≠ 0) ∧ Threads.create stack t = (-1, t)) ∨
      ((t.freeSlot ≠ none ∧ stack ≠ 0) ∧
        (Threads.create stack t).1 = (tidOf s.created).toInt ∧
        ∃ slot', Holds (withChild s) (Threads.create stack t).2 slot') := by
  unfold Threads.create
  cases hfree : t.freeSlot with
  | none => exact Or.inl ⟨fun hno => hno.1 rfl, rfl⟩
  | some k =>
    by_cases h0 : stack = 0
    · exact Or.inl ⟨fun hno => hno.2 h0, if_pos h0⟩
    simp only [if_neg h0]
    exact Or.inr ⟨⟨Option.some_ne_none k, h0⟩, congrArg BitVec.toInt h.next, _,
      holds_spawn h (Threads.freeSlot_dead hfree) stack⟩

/-- The calls of `run_protected` create threads in the table, and do nothing
    else to it. -/
theorem holds_advance (h : Holds s t slot) (hlt : i < s.created)
    (hi : (s.threads i).isAlive = true) (call : Wait) (ok : Bool)
    (hok : call.pc = .create → (ok = true ↔ t.freeSlot ≠ none ∧ stack ≠ 0)) :
    ∃ slot', Holds (advance i p call ok s)
      (if call.pc = .create then (Threads.create stack t).2 else t) slot' := by
  have hstay {b : Activity} (hb : b.isAlive = true) {u : Recovery}
      (hthreads : u.threads = (goOn i b s).threads) (hid : u.created = s.created) :
      ∃ slot', Holds u t slot' := ⟨slot, holds_stay h hi hb hthreads hid⟩
  rcases call with ⟨entry, pc⟩
  cases pc with
  | create =>
    simp only [if_true]
    rcases holds_create h stack with ⟨hno, hfail⟩ | ⟨hyes, -, slot', h'⟩
    · rw [hfail, Bool.eq_false_iff.mpr (fun hc => hno ((hok rfl).mp hc))]
      exact hstay (b := .program p) rfl rfl rfl
    · rw [(hok rfl).mpr hyes]
      have hi' : ((withChild s).threads i).isAlive = true := by
        rw [withChild, threads_goOn_ne (by omega)]
        exact hi
      simp only [advance, Bool.true_eq_false, if_false]
      split_ifs
      · exact ⟨slot', holds_stay (a := .program p) h' hi' rfl rfl rfl⟩
      · exact ⟨slot', holds_stay (a := .waiting p _) h' hi' rfl rfl rfl⟩
  | setEntry | clearResult | clearDone => exact hstay (b := .waiting p _) rfl rfl rfl
  | checkDone | checkAlive =>
    simp only [advance, reduceCtorEq, if_false]
    split_ifs <;> exact hstay (b := .waiting p _) rfl rfl rfl
  | readResult => exact hstay (b := .program p) rfl rfl rfl

/-- A step of the running thread and what it does to the table go together:
    the live threads stay those of the table. -/
theorem holds_exec {act : Act} {u : Recovery} (h : Holds s t slot) (hlt : i < s.created)
    (hcur : slot i = t.current)
    (hok : ∀ ok, act = .go ok → (ok = true ↔ t.freeSlot ≠ none ∧ stack ≠ 0))
    (he : exec s (i, act) = some u) :
    ∃ slot', Holds u ((tableOp stack s (i, act)).elim t (Threads.step t)) slot' := by
  cases hq : s.threads i with
  | absent | finished | killed => cases act <;> simp only [exec, hq, reduceCtorEq] at he
  | program p =>
    have hi : (s.threads i).isAlive = true := by rw [hq]; rfl
    cases act <;> simp only [exec, hq, tableOp] at he ⊢
    · cases he
      exact ⟨slot, holds_stay (a := .waiting p _) h hi rfl rfl rfl⟩
    · split_ifs at he
      cases he
      exact ⟨slot, holds_stay (a := .storing p _) h hi rfl rfl rfl⟩
    · split_ifs at he
      cases he
      exact ⟨slot, holds_exit h ⟨hlt, hi⟩ hcur rfl⟩
    · cases he
  | waiting p call =>
    have hi : (s.threads i).isAlive = true := by rw [hq]; rfl
    cases act <;> simp only [exec, hq, tableOp, reduceCtorEq, Option.some.injEq] at he ⊢
    subst he
    have hadv := holds_advance (p := p) h hlt hi call _ (fun _ => hok _ rfl)
    split_ifs at hadv ⊢ <;> exact hadv
  | wrapper | storing | signalling =>
    have hi : (s.threads i).isAlive = true := by rw [hq]; rfl
    cases act <;> simp only [exec, hq, tableOp, reduceCtorEq, Option.some.injEq] at he ⊢
    subst he
    exact ⟨slot, holds_stay h hi (by rfl) rfl rfl⟩
  | exiting p v =>
    have hi : (s.threads i).isAlive = true := by rw [hq]; rfl
    cases act <;> simp only [exec, hq, tableOp, reduceCtorEq, Option.some.injEq] at he ⊢
    subst he
    exact ⟨slot, holds_exit h ⟨hlt, hi⟩ hcur rfl⟩

end Table

/-- The shell runs a program that finishes with 7. -/
def oneProgram : List (Nat × Act) :=
  [(0, .call 100), (0, .go true), (0, .go true), (0, .go true), (0, .go true), (1, .go true),
    (1, .finish 7), (1, .go true), (1, .go true), (0, .go true), (0, .go true)]

instance (s : Recovery) (o : Nat × Act) : Decidable (system.allows s o) :=
  inferInstanceAs (Decidable ((exec s o).isSome = true))

instance (s : Recovery) (o : Nat × Act) : Decidable ((system.restrict Alone).allows s o) :=
  inferInstanceAs (Decidable ((exec s o).isSome = true ∧ Alone s o))

theorem right_reachable_oneProgram :
    ∃ s, (system.restrict Alone).run boot oneProgram = some s ∧
      s.returns = [{ entry := 100, child := some (.exiting 100 7), value := 7 }] ∧
      ∀ r ∈ s.returns, Right r := by
  have hrun : (system.restrict Alone).run boot oneProgram = some _ := rfl
  exact ⟨_, hrun, rfl,
    right_reachable (Machine.reachable_run (Machine.Reachable.start boot rfl) hrun)⟩

/-- The program of the shell runs another one, which finishes with 7. -/
def nestedPrograms : List (Nat × Act) :=
  [(0, .call 100), (0, .go true), (0, .go true), (0, .go true), (0, .go true), (1, .go true),
    (1, .call 200), (1, .go true), (1, .go true), (1, .go true), (1, .go true), (2, .go true),
    (2, .finish 7), (2, .go true), (2, .go true), (0, .go true), (0, .go true)]

/-- The outer call returns the inner result, and its own child still waits. -/
theorem nested_result :
    ∃ s, system.run boot nestedPrograms = some s ∧
      ∃ r ∈ s.returns, r.entry = 100 ∧ r.value = 7 ∧ ¬Right r := by
  refine ⟨_, rfl, { entry := 100, child := some _, value := 7 }, List.mem_cons_self, rfl, rfl, ?_⟩
  exact fun h => h

end SysRust.Recovery
