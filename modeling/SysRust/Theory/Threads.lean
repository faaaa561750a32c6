import Mathlib.Algebra.Group.Nat.Defs
import Mathlib.Algebra.Group.Fin.Basic
import SysRust.Core.Threads

/-!
# Threads and Their Stacks

The thread table is sound in every run: one thread runs, identifiers and
stacks are not shared, and no stack is lost or freed twice. What each step
does to the table is said first, slot by slot; the invariant follows from
that.

The stack of a thread that exits is another matter. The comments in
`thread.rs` want it freed once the processor is on another stack, but
`schedule` frees it first thing when `exit` calls it. So every `exit` of a
thread with a stack from the heap frees the stack it is running on, and a run
is safe exactly if there is no such `exit` in it.

## Main definitions

* `Sound`: What holds of the table after every step.
* `Careful`: Thread 0 does not exit, and identifiers do not run out.
* `Apart`: No stack has been freed with the stack pointer on it.
* `KeepsStacks`: No thread with a stack from the heap exits in a run.

## Theorems

* `mem_candidates`: The scan looks at every slot.
* `threads_switchTo`: The table after a switch.
* `inv_step`: A step keeps the invariant.
* `sound_reachable`: The table is sound in every run.
* `apart_iff`: A run frees no stack in use exactly if it keeps them all.
-/

namespace SysRust.Threads

open Function List

/-- The thread in a slot has not exited. -/
def Live (s : Threads) (i : Fin 32) : Prop := (s.threads i).state ≠ .dead

/-! ### The table after a step -/

@[simp] theorem threads_setThread_self (i : Fin 32) (t : Thread) (s : Threads) :
    (setThread i t s).threads i = t := by
  simp only [setThread, update_self]

variable {i slot next : Fin 32} {s t : Threads} {bs : List Block} {p sp stack : Nat} {o : Op}

theorem freeSlot_dead (h : s.freeSlot = some slot) : (s.threads slot).state = .dead := by
  have := List.find?_some h
  exact eq_of_beq this

/-- The scan looks at every slot. -/
theorem mem_candidates (old i : Fin 32) : i ∈ candidates old := by
  refine mem_map.mpr ⟨((i - old).val + 31) % 32, mem_range.mpr (by omega), ?_⟩
  have hdiff : Fin.ofNat 32 (((i - old).val + 31) % 32 + 1) = i - old := by
    apply Fin.ext
    simp only [Fin.ofNat]
    omega
  rw [hdiff, add_sub_cancel]

/-- The thread that is picked is ready, if it is another one. -/
theorem ready_of_pick (h : pick s ≠ s.current) : (s.threads (pick s)).state = .ready := by
  unfold pick at h ⊢
  cases hf : (candidates s.current).find? (fun i => (s.threads i).state == .ready) with
  | none =>
    rw [hf] at h
    exact absurd rfl h
  | some i =>
    have := List.find?_some hf
    exact eq_of_beq this

/-- If another thread is ready, one is picked. -/
theorem pick_ne (hcur : (s.threads s.current).state ≠ .ready) (hi : (s.threads i).state = .ready) :
    pick s ≠ s.current := by
  intro h
  unfold pick at h
  cases hf : (candidates s.current).find? (fun i => (s.threads i).state == .ready) with
  | none =>
    have := List.find?_eq_none.mp hf i (mem_candidates _ i)
    rw [hi] at this
    exact this rfl
  | some j =>
    rw [hf] at h
    have hj := List.find?_some hf
    rw [show j = s.current from h] at hj
    exact hcur (eq_of_beq hj)

/-- The old thread when it is switched away from. -/
def left (s : Threads) : Thread :=
  { s.threads s.current with
    state :=
      if (s.threads s.current).state = .running then .ready else (s.threads s.current).state
    rsp := s.sp - CONTEXT_SIZE }

/-- What a switch does. -/
theorem switchTo_eq (h : next ≠ s.current) : switchTo next s =
    { s with
      threads := Function.update (Function.update s.threads s.current (left s)) next
        { s.threads next with state := .running }
      current := next
      sp := (s.threads next).rsp + CONTEXT_SIZE } := by
  unfold switchTo contextSwitch left
  by_cases hr : (s.threads s.current).state = .running
  · simp only [if_pos hr, setThread, update_self, update_of_ne h,
      update_of_ne h.symm, update_comm h, update_idem]
  · simp only [if_neg hr, setThread, update_self, update_of_ne h.symm,
      update_comm h]

/-- The table after a switch. -/
theorem threads_switchTo (h : next ≠ s.current) (i : Fin 32) :
    (switchTo next s).threads i =
      if i = next then { s.threads next with state := .running }
      else if i = s.current then left s else s.threads i := by
  rw [switchTo_eq h]
  simp only [update_apply]

/-- A switch leaves everything else alone. -/
theorem switchTo_frame (h : next ≠ s.current) :
    (switchTo next s).current = next ∧ (switchTo next s).nextId = s.nextId ∧
      (switchTo next s).pendingFreeStack = s.pendingFreeStack ∧
      (switchTo next s).blocks = s.blocks ∧ (switchTo next s).halted = s.halted := by
  rw [switchTo_eq h]
  exact ⟨rfl, rfl, rfl, rfl, rfl⟩

/-- Who a thread is does not change in a switch. -/
theorem switchTo_keeps (h : next ≠ s.current) (i : Fin 32) :
    ((switchTo next s).threads i).id = (s.threads i).id ∧
      ((switchTo next s).threads i).stackBase = (s.threads i).stackBase := by
  rw [threads_switchTo h]
  split_ifs with h1 h2
  · rw [h1]
    exact ⟨rfl, rfl⟩
  · rw [h2]
    exact ⟨rfl, rfl⟩
  · exact ⟨rfl, rfl⟩

/-- The states after a switch. -/
theorem state_switchTo (h : next ≠ s.current) (i : Fin 32) :
    ((switchTo next s).threads i).state =
      if i = next then .running
      else if i = s.current ∧ (s.threads i).state = .running then .ready
      else (s.threads i).state := by
  rw [threads_switchTo h]
  by_cases h1 : i = next
  · rw [if_pos h1, if_pos h1]
  · rw [if_neg h1, if_neg h1]
    by_cases h2 : i = s.current
    · subst h2
      simp only [left, true_and, if_true]
    · simp only [h2, if_false, false_and]

/-- A thread that is switched between is alive before and after. -/
theorem live_switchTo (h : next ≠ s.current) (hn : (s.threads next).state = .ready) (i : Fin 32) :
    Live (switchTo next s) i ↔ Live s i := by
  unfold Live
  rw [state_switchTo h]
  split_ifs with h1 h2
  · subst h1
    simp only [hn, ne_eq, reduceCtorEq, not_false_eq_true]
  · simp only [h2.2, ne_eq, reduceCtorEq, not_false_eq_true]
  · exact Iff.rfl

theorem freePending_eq (h : s.pendingFreeStack = 0) : freePending s = s := by
  simp only [freePending, h, ne_eq, not_true_eq_false, if_false]

/-- Nothing happens, or there is a switch to a ready thread. -/
theorem schedule_cases (s : Threads) :
    (schedule s = freePending s) ∨ ∃ next, next ≠ (freePending s).current ∧
      ((freePending s).threads next).state = .ready ∧
      schedule s = switchTo next (freePending s) := by
  by_cases hp : pick (freePending s) = (freePending s).current
  · exact Or.inl (if_pos hp)
  · exact Or.inr ⟨_, hp, ready_of_pick hp, if_neg hp⟩

/-- Nothing happens, or a slot that is free is filled. -/
theorem create_cases (stack : Nat) (s : Threads) :
    (create stack s).2 = s ∨ ∃ slot, (s.threads slot).state = .dead ∧ stack ≠ 0 ∧
      (create stack s).2 = spawn slot stack s := by
  unfold create
  cases hslot : s.freeSlot with
  | none => exact Or.inl rfl
  | some slot =>
    by_cases h0 : stack = 0
    · exact Or.inl (by simp only [if_pos h0])
    · exact Or.inr ⟨slot, freeSlot_dead hslot, h0, by simp only [if_neg h0]⟩

/-! ### Blocks -/

/-- The newest block at the address is freed once more, if there is one. -/
theorem freeBlock_split (p sp : Nat) (bs : List Block) :
    (freeBlock p sp bs = bs ∧ ∀ b ∈ bs, b.addr ≠ p) ∨
      ∃ pre b post, bs = pre ++ b :: post ∧ b.addr = p ∧ (∀ c ∈ pre, c.addr ≠ p) ∧
        freeBlock p sp bs = pre ++ { b with frees := b.frees ++ [sp] } :: post := by
  fun_induction freeBlock p sp bs with
  | case1 => exact Or.inl ⟨rfl, forall_mem_nil _⟩
  | case2 b bs hb => exact Or.inr ⟨[], b, bs, rfl, hb, forall_mem_nil _, rfl⟩
  | case3 b bs hb ih =>
    rcases ih with ⟨heq, hno⟩ | ⟨pre, c, post, rfl, hc, hno, heq⟩
    · rw [heq]
      exact Or.inl ⟨rfl, forall_mem_cons.mpr ⟨hb, hno⟩⟩
    · rw [heq]
      exact Or.inr ⟨b :: pre, c, post, rfl, hc, forall_mem_cons.mpr ⟨hb, hno⟩, rfl⟩

/-- Every block is still there, with what it was freed at before. -/
theorem freeBlock_mem {b : Block} (h : b ∈ bs) :
    b ∈ freeBlock p sp bs ∨
      (b.addr = p ∧ { b with frees := b.frees ++ [sp] } ∈ freeBlock p sp bs) := by
  rcases freeBlock_split p sp bs with ⟨heq, _⟩ | ⟨pre, c, post, rfl, hc, _, heq⟩
  · rw [heq]
    exact Or.inl h
  · rw [heq]
    grind

/-- If there is a block at the address, one is freed. -/
theorem freeBlock_freed (sp : Nat) (h : ∃ b ∈ bs, b.addr = p) :
    ∃ b ∈ freeBlock p sp bs, b.addr = p ∧ sp ∈ b.frees := by
  rcases freeBlock_split p sp bs with ⟨_, hno⟩ | ⟨pre, c, post, rfl, hc, _, heq⟩
  · rcases h with ⟨b, hb, hp⟩
    exact absurd hp (hno b hb)
  · rw [heq]
    exact ⟨_, mem_append_right _ mem_cons_self, hc,
      mem_append_right _ mem_cons_self⟩

/-- A block that is not freed is the newest one at its address. -/
def Newest (bs : List Block) : Prop :=
  bs.Pairwise (fun b c => b.addr = c.addr → c.frees ≠ [])

/-- Freeing the stack of a thread: each block has been freed once or is the
    block of another address. -/
theorem freeBlock_once (hn : Newest bs) (hp : ∃ b ∈ bs, b.addr = p ∧ b.frees = []) {c : Block}
    (h : c ∈ freeBlock p sp bs) :
    (c ∈ bs ∧ (c.addr = p → c.frees ≠ [])) ∨ (c.addr = p ∧ c.frees = [sp]) := by
  rcases hp with ⟨d, hd, hdp, hdf⟩
  rcases freeBlock_split p sp bs with ⟨_, hno⟩ | ⟨pre, b, post, rfl, hb, hno, heq⟩
  · exact absurd hdp (hno d hd)
  -- The newest block at the address is the one that is not freed.
  rcases pairwise_append.mp hn with ⟨-, hpost, -⟩
  have hold := (pairwise_cons.mp hpost).1
  grind

theorem newest_freeBlock (hn : Newest bs) : Newest (freeBlock p sp bs) := by
  rcases freeBlock_split p sp bs with ⟨heq, _⟩ | ⟨pre, b, post, rfl, _, _, heq⟩
  · rw [heq]
    exact hn
  · rw [heq]
    rcases pairwise_append.mp hn with ⟨hpre, hpost, hacross⟩
    rcases pairwise_cons.mp hpost with ⟨hb, hpost⟩
    refine pairwise_append.mpr ⟨hpre, pairwise_cons.mpr ⟨hb, hpost⟩, ?_⟩
    grind

/-! ### The invariant -/

/-- Live threads have different ids and stacks of their own. -/
structure Separate (s : Threads) : Prop where
  zero : Live s 0
  ids : ∀ i j, Live s i → Live s j → (s.threads i).id = (s.threads j).id → i = j
  held : ∀ i, i ≠ 0 → Live s i → (s.threads i).stackBase ≠ 0 ∧
    ∃ b ∈ s.blocks, b.addr = (s.threads i).stackBase ∧ b.frees = []
  owners : ∀ i j, i ≠ 0 → j ≠ 0 → Live s i → Live s j →
    (s.threads i).stackBase = (s.threads j).stackBase → i = j

/-- What holds of the table after every step. -/
structure Sound (s : Threads) : Prop extends Separate s where
  running : ∀ i, (s.threads i).state = .running ↔ i = s.current
  accounted : ∀ b ∈ s.blocks,
    (b.frees = [] ∧ ∃ i, i ≠ 0 ∧ Live s i ∧ (s.threads i).stackBase = b.addr) ∨
    (b.frees = [] ∧ s.pendingFreeStack = b.addr) ∨ b.frees.length = 1

/-- What carries it from step to step, apart from who is running. Between
    steps no stack is pending. -/
structure Kept (s : Threads) : Prop extends Separate s where
  only : ∀ i, (s.threads i).state = .running → i = s.current
  others : ∀ i, i ≠ s.current → (s.threads i).state = .ready ∨ (s.threads i).state = .dead
  zeroId : (s.threads 0).id = 0
  idLt : ∀ i, i ≠ 0 → Live s i → (s.threads i).id.toNat < s.nextId.toNat
  idPos : 0 < s.nextId.toNat ∧ s.nextId.toNat ≤ 2 ^ 31
  zeroStack : (s.threads 0).stackBase = 0
  accounted : ∀ b ∈ s.blocks,
    (b.frees = [] ∧ ∃ i, i ≠ 0 ∧ Live s i ∧ (s.threads i).stackBase = b.addr) ∨
    b.frees.length = 1
  newest : Newest s.blocks
  pending : s.pendingFreeStack = 0
  halted : s.halted = false

/-- Between the steps the current thread is running. -/
structure Inv (s : Threads) : Prop extends Kept s where
  running : (s.threads s.current).state = .running

theorem Inv.sound (h : Inv s) : Sound s where
  toSeparate := h.toSeparate
  running := fun i => ⟨h.only i, fun hi => hi ▸ h.running⟩
  accounted := fun b hb => (h.accounted b hb).imp_right Or.inr

/-- Thread 0 does not exit, and there are fewer than `2^31` creations. -/
def Careful (s : Threads) : Op → Prop
  | .create _ => s.nextId.toNat < 2 ^ 31
  | .exit => s.current ≠ 0
  | _ => True

theorem inv_start (sp : Nat) : Inv (init (boot sp)) := by
  have hdead (i : Fin 32) (h : i ≠ 0) : ((init (boot sp)).threads i).state = .dead := by
    simp only [init, boot, DEAD_THREAD, if_neg h]
  have hlive {i : Fin 32} (h : Live (init (boot sp)) i) : i = 0 := by
    by_contra h0
    exact h (hdead i h0)
  have hzero : ((init (boot sp)).threads 0).state = .running := rfl
  have hlive0 : Live (init (boot sp)) 0 := by
    rw [Live, hzero]
    decide
  exact
    { only := fun i hi => hlive (by rw [Live, hi]; decide)
      others := fun i hi => Or.inr (hdead i hi)
      zero := hlive0
      zeroId := rfl
      ids := fun i j hi hj _ => (hlive hi).trans (hlive hj).symm
      idLt := fun i hi hl => absurd (hlive hl) hi
      idPos := ⟨Nat.one_pos, show 1 ≤ 2 ^ 31 by decide⟩
      zeroStack := rfl
      held := fun i hi hl => absurd (hlive hl) hi
      owners := fun i j hi _ hl => absurd (hlive hl) hi
      accounted := forall_mem_nil _
      newest := List.Pairwise.nil
      pending := rfl
      halted := rfl
      running := hzero }

/-- A thread is running or ready if it is alive. -/
theorem Kept.ready (h : Kept s) (hi : i ≠ s.current) (hl : Live s i) :
    (s.threads i).state = .ready := by
  rcases h.others i hi with h' | h'
  · exact h'
  · exact absurd h' hl

/-- A step that keeps the ids and stacks of the threads it leaves alive, and the
    blocks of these stacks. -/
theorem separate_of_keeps {t : Threads} (h : Separate s) (hzero : Live t 0)
    (hkeep : ∀ i, Live t i → Live s i ∧ (t.threads i).id = (s.threads i).id ∧
      (t.threads i).stackBase = (s.threads i).stackBase)
    (hblocks : ∀ i, i ≠ 0 → Live t i → ∀ b ∈ s.blocks, b.addr = (s.threads i).stackBase →
      b ∈ t.blocks) : Separate t := by
  refine ⟨hzero, fun i j hi hj he => ?_, fun i hi hl => ?_, fun i j hi hj hli hlj he => ?_⟩
  · rw [(hkeep i hi).2.1, (hkeep j hj).2.1] at he
    exact h.ids i j (hkeep i hi).1 (hkeep j hj).1 he
  · rcases h.held i hi (hkeep i hl).1 with ⟨hs, b, hb, hba, hbf⟩
    rw [(hkeep i hl).2.2]
    exact ⟨hs, b, hblocks i hi hl b hb hba, hba, hbf⟩
  · rw [(hkeep i hli).2.2, (hkeep j hlj).2.2] at he
    exact h.owners i j hi hj (hkeep i hli).1 (hkeep j hlj).1 he

/-- A switch to a ready thread, from one that runs or has retired. -/
theorem inv_switchTo (h : Kept s)
    (hcur : (s.threads s.current).state = .running ∨ (s.threads s.current).state = .dead)
    (hne : next ≠ s.current) (hready : (s.threads next).state = .ready) :
    Inv (switchTo next s) := by
  have hlive := live_switchTo hne hready
  have hkeep := switchTo_keeps hne
  rcases switchTo_frame hne with ⟨hnext, hid, hpend, hblocks, hhalt⟩
  have hstate := state_switchTo hne
  refine
    { toSeparate := separate_of_keeps h.toSeparate ((hlive 0).mpr h.zero)
        (fun i hl => ⟨(hlive i).mp hl, hkeep i⟩) (fun _ _ _ b hb _ => hblocks ▸ hb)
      only := ?_
      others := ?_
      zeroId := (hkeep 0).1.trans h.zeroId
      idLt := ?_
      idPos := hid ▸ h.idPos
      zeroStack := (hkeep 0).2.trans h.zeroStack
      accounted := ?_
      newest := hblocks ▸ h.newest
      pending := hpend.trans h.pending
      halted := hhalt.trans h.halted
      running := ?_ }
  · intro i hi
    rw [hstate] at hi
    split_ifs at hi with h1 h2
    · exact h1
    · exact absurd ⟨h.only i hi, hi⟩ h2
  · intro i hi
    rw [hnext] at hi
    rw [hstate, if_neg hi]
    by_cases h2 : i = s.current
    · rcases hcur with hr | hd
      · rw [if_pos ⟨h2, h2 ▸ hr⟩]
        exact Or.inl rfl
      · rw [if_neg (fun h' => by rw [h2, hd] at h'; exact absurd h'.2 (by decide)), h2]
        exact Or.inr hd
    · rw [if_neg (fun h' => h2 h'.1)]
      exact h.others i h2
  · intro i hi hl
    rw [(hkeep i).1, hid]
    exact h.idLt i hi ((hlive i).mp hl)
  · intro b hb
    rw [hblocks] at hb
    rcases h.accounted b hb with ⟨hf, i, hi, hl, ha⟩ | h'
    · exact Or.inl ⟨hf, i, hi, (hlive i).mpr hl, (hkeep i).2.trans ha⟩
    · exact Or.inr h'
  · rw [hnext, hstate, if_pos rfl]

theorem inv_yieldThread (h : Inv s) : Inv (yieldThread s) := by
  have hsame := freePending_eq h.pending
  rcases schedule_cases s with heq | ⟨next, hne, hready, heq⟩
  · rw [yieldThread, heq, hsame]
    exact h
  · rw [hsame] at hne hready heq
    rw [yieldThread, heq]
    exact inv_switchTo h.toKept (Or.inl h.running) hne hready

theorem threads_spawn_self (slot : Fin 32) (stack : Nat) (s : Threads) :
    (spawn slot stack s).threads slot = s.fresh stack := threads_setThread_self _ _ _

theorem threads_spawn_ne (stack : Nat) (s : Threads) (h : i ≠ slot) :
    (spawn slot stack s).threads i = s.threads i := update_of_ne h _ _

section Spawn

/-- No live thread has the next identifier. -/
theorem id_ne_nextId (h : Inv s) (hl : Live s i) : (s.threads i).id ≠ s.nextId := by
  intro hc
  by_cases hi : i = 0
  · rw [hi, h.zeroId] at hc
    have := h.idPos.1
    rw [← hc] at this
    exact absurd this (by decide)
  · have := h.idLt i hi hl
    rw [hc] at this
    omega

/-- No live thread has a stack that is new. -/
theorem stackBase_ne (h : Inv s) (hfresh : ∀ b ∈ s.blocks, b.addr = stack → b.frees ≠ [])
    (hi : i ≠ 0) (hl : Live s i) : (s.threads i).stackBase ≠ stack := by
  rcases h.held i hi hl with ⟨-, b, hb, hba, hbf⟩
  exact fun hc => hfresh b hb (hba.trans hc) hbf

theorem live_spawn_ne (stack : Nat) (hi : i ≠ slot) : Live (spawn slot stack s) i ↔ Live s i := by
  rw [Live, threads_spawn_ne stack s hi]
  exact Iff.rfl

/-- What tells the live threads apart still does if the new one differs. -/
theorem spawn_apart {α : Type} (f : Thread → α) {P : Fin 32 → Prop}
    (hold : ∀ i j, P i → P j → Live s i → Live s j → f (s.threads i) = f (s.threads j) → i = j)
    (hnew : ∀ i, P i → Live s i → f (s.threads i) ≠ f (s.fresh stack)) (i j : Fin 32) (hi : P i)
    (hj : P j) (hli : Live (spawn slot stack s) i) (hlj : Live (spawn slot stack s) j)
    (he : f ((spawn slot stack s).threads i) = f ((spawn slot stack s).threads j)) : i = j := by
  have hself := threads_spawn_self slot stack s
  by_cases h1 : i = slot <;> by_cases h2 : j = slot
  · rw [h1, h2]
  · rw [h1, hself, threads_spawn_ne stack s h2] at he
    exact absurd he.symm (hnew j hj ((live_spawn_ne stack h2).mp hlj))
  · rw [h2, hself, threads_spawn_ne stack s h1] at he
    exact absurd he (hnew i hi ((live_spawn_ne stack h1).mp hli))
  · rw [threads_spawn_ne stack s h1, threads_spawn_ne stack s h2] at he
    exact hold i j hi hj ((live_spawn_ne stack h1).mp hli) ((live_spawn_ne stack h2).mp hlj) he

/-- Every live thread has a block, the new one its own. -/
theorem spawn_held (h : Inv s) (h0 : stack ≠ 0) (hi : i ≠ 0) (hl : Live (spawn slot stack s) i) :
    ((spawn slot stack s).threads i).stackBase ≠ 0 ∧ ∃ b ∈ (spawn slot stack s).blocks,
      b.addr = ((spawn slot stack s).threads i).stackBase ∧ b.frees = [] := by
  by_cases h1 : i = slot
  · rw [h1, threads_spawn_self]
    exact ⟨h0, _, mem_cons_self, rfl, rfl⟩
  · rw [threads_spawn_ne stack s h1]
    rcases h.held i hi ((live_spawn_ne stack h1).mp hl) with ⟨hs, b, hb, hba⟩
    exact ⟨hs, b, mem_cons_of_mem _ hb, hba⟩

/-- Every block is the stack of a live thread, or was freed once. -/
theorem spawn_accounted (h : Inv s) (hdead : (s.threads slot).state = .dead) (hslot : slot ≠ 0)
    {b : Block} (hb : b ∈ (spawn slot stack s).blocks) :
    (b.frees = [] ∧ ∃ i, i ≠ 0 ∧ Live (spawn slot stack s) i ∧
      ((spawn slot stack s).threads i).stackBase = b.addr) ∨ b.frees.length = 1 := by
  have hself := threads_spawn_self slot stack s
  rcases mem_cons.mp hb with rfl | hb
  · refine Or.inl ⟨rfl, slot, hslot, ?_, congrArg Thread.stackBase hself⟩
    rw [Live, hself]
    simp only [fresh, ne_eq, reduceCtorEq, not_false_eq_true]
  · rcases h.accounted b hb with ⟨hf, i, hi, hl, ha⟩ | h'
    · have h1 : i ≠ slot := fun hc => hl (hc ▸ hdead)
      refine Or.inl ⟨hf, i, hi, (live_spawn_ne stack h1).mpr hl, ?_⟩
      rw [threads_spawn_ne stack s h1]
      exact ha
    · exact Or.inr h'

/-- A new thread with a stack that nobody else has. -/
theorem inv_spawn (h : Inv s) (hdead : (s.threads slot).state = .dead) (h0 : stack ≠ 0)
    (hfresh : ∀ b ∈ s.blocks, b.addr = stack → b.frees ≠ []) (hid : s.nextId.toNat < 2 ^ 31) :
    Inv (spawn slot stack s) := by
  have hcur : s.current ≠ slot := by
    intro hc
    have := h.running
    rw [hc, hdead] at this
    exact absurd this (by decide)
  have hzero : (0 : Fin 32) ≠ slot := fun hc => h.zero (hc ▸ hdead)
  have hnext : (spawn slot stack s).nextId.toNat = s.nextId.toNat + 1 := by
    show (s.nextId + 1).toNat = _
    rw [BitVec.toNat_add, show (1 : BitVec 32).toNat = 1 from rfl]
    omega
  have hself := threads_spawn_self slot stack s
  have hother {i : Fin 32} (hi : i ≠ slot) := threads_spawn_ne stack s hi
  refine
    { only := fun i hi => ?_
      others := fun i hi => ?_
      zero := (live_spawn_ne stack hzero).mpr h.zero
      zeroId := by rw [hother hzero]; exact h.zeroId
      ids := fun i j => spawn_apart (P := fun _ => True) Thread.id (fun i j _ _ => h.ids i j)
        (fun _ _ hl => id_ne_nextId h hl) i j trivial trivial
      idLt := fun i hi hl => ?_
      idPos := by rw [hnext]; omega
      zeroStack := by rw [hother hzero]; exact h.zeroStack
      held := fun _ hi hl => spawn_held h h0 hi hl
      owners := spawn_apart Thread.stackBase h.owners (fun _ hi hl => stackBase_ne h hfresh hi hl)
      accounted := fun _ hb => spawn_accounted h hdead hzero.symm hb
      newest := pairwise_cons.mpr ⟨fun b hb he => hfresh b hb he.symm, h.newest⟩
      pending := h.pending
      halted := h.halted
      running := (congrArg Thread.state (hother hcur)).trans h.running }
  · by_cases h1 : i = slot
    · rw [h1, hself] at hi
      exact absurd hi (by simp only [fresh, reduceCtorEq, not_false_eq_true])
    · rw [hother h1] at hi
      exact h.only i hi
  · by_cases h1 : i = slot
    · rw [h1, hself]
      exact Or.inl rfl
    · rw [hother h1]
      exact h.others i hi
  · rw [hnext]
    by_cases h1 : i = slot
    · rw [h1, hself]
      exact Nat.lt_succ_self _
    · rw [hother h1]
      have := h.idLt i hi ((live_spawn_ne stack h1).mp hl)
      omega

end Spawn

theorem inv_create (h : Inv s) (ha : stack = 0 ∨ ∀ b ∈ s.blocks, b.addr = stack → b.frees ≠ [])
    (hid : s.nextId.toNat < 2 ^ 31) : Inv (create stack s).2 := by
  rcases create_cases stack s with heq | ⟨slot, hdead, h0, heq⟩
  · rw [heq]
    exact h
  · rw [heq]
    exact inv_spawn h hdead h0 (ha.resolve_left h0) hid

/-! ### Exits -/

/-- What is left when a thread has retired: its stack is pending. -/
theorem retire_eq (s : Threads) : retire s =
    { s with
      threads := Function.update s.threads s.current
        { s.threads s.current with state := .dead, stackBase := 0 }
      pendingFreeStack :=
        if (s.threads s.current).stackBase = 0 then s.pendingFreeStack
        else (s.threads s.current).stackBase } := by
  unfold retire
  by_cases hst : (s.threads s.current).stackBase = 0
  · simp only [setThread, update_self, hst, ne_eq, not_true_eq_false, if_false, if_true]
  · simp only [setThread, update_self, hst, ne_eq, not_false_eq_true, if_true, if_false,
      update_idem]

theorem retire_frame (s : Threads) :
    (retire s).current = s.current ∧ (retire s).nextId = s.nextId ∧ (retire s).sp = s.sp ∧
      (retire s).blocks = s.blocks ∧ (retire s).halted = s.halted ∧
      (s.pendingFreeStack = 0 →
        (retire s).pendingFreeStack = (s.threads s.current).stackBase) := by
  rw [retire_eq]
  refine ⟨rfl, rfl, rfl, rfl, rfl, fun hp => ?_⟩
  split_ifs with hst
  · rw [hst, hp]
  · rfl

/-- The pending stack is freed before anything else happens. -/
theorem freePending_retire (hp : s.pendingFreeStack = 0)
    (hs : (s.threads s.current).stackBase ≠ 0) :
    freePending (retire s) =
      { retire s with
        blocks := freeBlock (s.threads s.current).stackBase s.sp s.blocks
        pendingFreeStack := 0 } := by
  rcases retire_frame s with ⟨-, -, hsp, hblocks, -, hpend⟩
  simp only [freePending, hpend hp, kfree, hblocks, hsp, ne_eq, hs, not_false_eq_true, if_true]

theorem freePending_frame (s : Threads) :
    (freePending s).threads = s.threads ∧ (freePending s).current = s.current ∧
      (freePending s).sp = s.sp ∧ (freePending s).halted = s.halted ∧
      (freePending s).pendingFreeStack = 0 := by
  unfold freePending
  split_ifs with hp
  · exact ⟨rfl, rfl, rfl, rfl, rfl⟩
  · exact ⟨rfl, rfl, rfl, rfl, not_not.mp hp⟩

/-- The retired thread is dead, and the other ones are as before. -/
theorem threads_retire (s : Threads) (i : Fin 32) :
    (freePending (retire s)).threads i =
      if i = s.current then { s.threads s.current with state := .dead, stackBase := 0 }
      else s.threads i := by
  rw [(freePending_frame (retire s)).1, retire_eq]
  exact update_apply _ _ _ _

/-- Who is alive then was alive before. -/
theorem live_retire (h : Live (freePending (retire s)) i) :
    i ≠ s.current ∧ Live s i ∧ (freePending (retire s)).threads i = s.threads i := by
  have hi : i ≠ s.current := fun hi => h (by rw [threads_retire, if_pos hi])
  have hsame : (freePending (retire s)).threads i = s.threads i := by
    rw [threads_retire, if_neg hi]
  exact ⟨hi, by rwa [Live, hsame] at h, hsame⟩

/-- A scheduler call keeps the threads and their numbers. -/
theorem schedule_keeps (s : Threads) : (schedule s).nextId = s.nextId ∧
    ∀ i, (Live (schedule s) i ↔ Live s i) ∧ ((schedule s).threads i).id = (s.threads i).id := by
  have hthreads := (freePending_frame s).1
  have hnext : (freePending s).nextId = s.nextId := by
    unfold freePending
    split_ifs <;> rfl
  rcases schedule_cases s with heq | ⟨next, hne, hready, heq⟩
  · rw [heq]
    refine ⟨hnext, fun i => ?_⟩
    rw [Live, hthreads]
    exact ⟨Iff.rfl, rfl⟩
  · rw [heq]
    refine ⟨(switchTo_frame hne).2.1.trans hnext, fun i => ⟨?_, ?_⟩⟩
    · rw [live_switchTo hne hready, Live, hthreads]
      exact Iff.rfl
    · rw [(switchTo_keeps hne i).1, hthreads]

/-- An exit takes the current thread out of the table. -/
theorem exit_keeps (s : Threads) : (exit s).nextId = s.nextId ∧
    ∀ i, (Live (exit s) i ↔ i ≠ s.current ∧ Live s i) ∧
      ((exit s).threads i).id = (s.threads i).id := by
  have hexit : (exit s).nextId = (schedule (retire s)).nextId ∧
      (exit s).threads = (schedule (retire s)).threads := by
    simp only [exit]
    split_ifs <;> exact ⟨rfl, rfl⟩
  rcases schedule_keeps (retire s) with ⟨hnext, hkeeps⟩
  refine ⟨hexit.1.trans (hnext.trans (retire_frame s).2.1), fun i => ?_⟩
  have hlive : Live (exit s) i ↔ Live (retire s) i := by
    rw [Live, hexit.2]
    exact (hkeeps i).1
  rw [hlive, hexit.2, (hkeeps i).2, Live, retire_eq]
  by_cases hi : i = s.current
  · simp only [hi, update_self, ne_eq, not_true_eq_false, false_and, and_self]
  · simp only [update_of_ne hi, ne_eq, hi, not_false_eq_true, true_and, and_true]
    exact Iff.rfl

/-- A thread other than thread 0 has retired, and its stack has been freed. -/
theorem kept_retire (h : Inv s) (h0 : s.current ≠ 0) : Kept (freePending (retire s)) := by
  have hcur : Live s s.current := by
    rw [Live, h.running]
    decide
  rcases h.held s.current h0 hcur with ⟨hst, hblock⟩
  rcases retire_frame s with ⟨hc, hid, -, -, hhalt, -⟩
  have hother {i : Fin 32} (hi : i ≠ s.current) :
      (freePending (retire s)).threads i = s.threads i := by
    rw [threads_retire, if_neg hi]
  have hfreed := freePending_retire h.pending hst
  have hblocks : (freePending (retire s)).blocks =
      freeBlock (s.threads s.current).stackBase s.sp s.blocks := by rw [hfreed]
  have hnext : (freePending (retire s)).nextId = s.nextId := by rw [hfreed]; exact hid
  have hzero : Live (freePending (retire s)) 0 := by
    rw [Live, hother h0.symm]
    exact h.zero
  refine
    { toSeparate := separate_of_keeps h.toSeparate hzero (fun i hl => ?_)
        (fun i hi hl b hb hba => ?_)
      only := ?_
      others := ?_
      zeroId := by rw [hother h0.symm]; exact h.zeroId
      idLt := ?_
      idPos := hnext ▸ h.idPos
      zeroStack := by rw [hother h0.symm]; exact h.zeroStack
      accounted := ?_
      newest := hblocks ▸ newest_freeBlock h.newest
      pending := (freePending_frame (retire s)).2.2.2.2
      halted := (freePending_frame (retire s)).2.2.2.1.trans (hhalt.trans h.halted) }
  · rw [(live_retire hl).2.2]
    exact ⟨(live_retire hl).2.1, rfl, rfl⟩
  · rcases live_retire hl with ⟨hne, hl', -⟩
    rw [hblocks]
    rcases freeBlock_mem hb with h' | ⟨h', -⟩
    · exact h'
    · exact absurd (h.owners i s.current hi h0 hl' hcur (hba.symm.trans h')) hne
  · intro i hi
    rcases live_retire (by rw [Live, hi]; decide) with ⟨hne, -, he⟩
    rw [he] at hi
    exact absurd (h.only i hi) hne
  · intro i hi
    rw [(freePending_frame (retire s)).2.1, hc] at hi
    rw [hother hi]
    exact h.others i hi
  · intro i hi hl
    rw [(live_retire hl).2.2, hnext]
    exact h.idLt i hi (live_retire hl).2.1
  · intro b hb
    rw [hblocks] at hb
    rcases freeBlock_once h.newest hblock hb with ⟨hb', hne⟩ | ⟨-, hf⟩
    · rcases h.accounted b hb' with ⟨hf, i, hi, hl, ha⟩ | h'
      · have hi' : i ≠ s.current := fun h' => hne (by rw [← ha, h']) hf
        exact Or.inl ⟨hf, i, hi, by rw [Live, hother hi']; exact hl, by rw [hother hi']; exact ha⟩
      · exact Or.inr h'
    · exact Or.inr (by rw [hf]; rfl)

/-- An exit always finds thread 0 to switch to, or one before it. -/
theorem inv_exit (h : Inv s) (h0 : s.current ≠ 0) : Inv (exit s) := by
  have hk := kept_retire h h0
  have hcur : (freePending (retire s)).current = s.current :=
    (freePending_frame (retire s)).2.1.trans (retire_frame s).1
  have hdead : ((freePending (retire s)).threads s.current).state = .dead := by
    rw [threads_retire, if_pos rfl]
  have hpick : pick (freePending (retire s)) ≠ (freePending (retire s)).current :=
    pick_ne (by rw [hcur, hdead]; decide) (hk.ready (by rw [hcur]; exact h0.symm) hk.zero)
  have hsched : schedule (retire s) =
      switchTo (pick (freePending (retire s))) (freePending (retire s)) := if_neg hpick
  have hnext := (switchTo_frame hpick).1
  simp only [exit, hsched]
  rw [if_neg (by rw [hnext, ← hcur]; exact hpick)]
  exact inv_switchTo hk (Or.inr (by rw [hcur]; exact hdead)) hpick (ready_of_pick hpick)

theorem inv_step (h : Inv s) (ha : Allowed s o) (hc : Careful s o) : Inv (step s o) := by
  cases o with
  | create stack => exact inv_create h ha.2 hc
  | yieldThread => exact inv_yieldThread h
  | exit => exact inv_exit h hc
  | work sp => exact { h with }

/-- The thread table is sound in every run. -/
theorem sound_reachable {s : Threads} (h : (system.restrict Careful).Reachable s) : Sound s := by
  have hinv : Inv s := by
    refine h.invariant Inv ?_ ?_
    · rintro s ⟨sp, rfl⟩
      exact inv_start sp
    · intro s t o hs ha he
      rw [← Option.some.inj he]
      exact inv_step hs ha.1 ha.2
  exact hinv.sound

/-- Two threads are created, and the first one exits. -/
def twoThreads : List Op := [.create 0x20000, .create 0x30000, .yieldThread, .exit]

instance (s : Threads) : ∀ o, Decidable (Careful s o)
  | .create _ => inferInstanceAs (Decidable (_ < _))
  | .yieldThread => inferInstanceAs (Decidable True)
  | .exit => inferInstanceAs (Decidable (_ ≠ _))
  | .work _ => inferInstanceAs (Decidable True)

instance (s : Threads) (o : Op) : Decidable ((system.restrict Careful).allows s o) :=
  inferInstanceAs (Decidable (Allowed s o ∧ Careful s o))

theorem sound_reachable_twoThreads :
    ∃ s, (system.restrict Careful).run (init (boot 0x9000)) twoThreads = some s ∧
      s.current = 2 ∧ (s.blocks.map fun b => b.frees.length) = [0, 1] ∧ Sound s := by
  refine ⟨_, rfl, by decide, by decide, ?_⟩
  have hrun : (system.restrict Careful).run (init (boot 0x9000)) twoThreads = some _ := rfl
  exact sound_reachable (Machine.reachable_run (Machine.Reachable.start _ ⟨0x9000, rfl⟩) hrun)

/-! ### Stacks in use -/

/-- No stack has been freed with the stack pointer on it. -/
def Apart (s : Threads) : Prop :=
  ∀ b ∈ s.blocks, ∀ sp ∈ b.frees, ¬(b.addr ≤ sp ∧ sp < b.addr + THREAD_STACK_SIZE)

/-- No thread with a stack from the heap exits in the run. -/
def KeepsStacks : Threads → List Op → Prop
  | _, [] => True
  | s, o :: os =>
    (o = .exit → (s.threads s.current).stackBase = 0) ∧ KeepsStacks (step s o) os

/-- Where the stack pointer of a thread is: the processor's, or the one it
    is switched back to. -/
def spOf (s : Threads) (i : Fin 32) : Nat :=
  if i = s.current then s.sp else (s.threads i).rsp + CONTEXT_SIZE

/-- Every live thread is on its own stack, which has been allocated. -/
structure OnOwn (s : Threads) : Prop where
  pending : s.pendingFreeStack = 0
  own : ∀ i, Live s i → (s.threads i).stackBase ≠ 0 →
    OnStack (s.threads i).stackBase (spOf s i) ∧ ∃ b ∈ s.blocks, b.addr = (s.threads i).stackBase

theorem blocks_schedule (s : Threads) : (schedule s).blocks = (freePending s).blocks := by
  simp only [schedule]
  split_ifs with hp
  · rfl
  · exact (switchTo_frame hp).2.2.2.1

theorem blocks_exit (s : Threads) : (exit s).blocks = (freePending (retire s)).blocks := by
  rw [← blocks_schedule]
  simp only [exit]
  split_ifs <;> rfl

/-- The stack pointers of a thread that stays on its stack do not change in
    a switch. -/
theorem spOf_switchTo (h : next ≠ s.current) (hi : i = s.current → CONTEXT_SIZE ≤ s.sp) :
    spOf (switchTo next s) i = spOf s i := by
  unfold spOf
  rw [(switchTo_frame h).1, threads_switchTo h, switchTo_eq h]
  by_cases h1 : i = next
  · rw [if_pos h1, h1, if_neg h]
  · rw [if_neg h1, if_neg h1]
    by_cases h2 : i = s.current
    · rw [if_pos h2, if_pos h2]
      simp only [left]
      omega
    · rw [if_neg h2, if_neg h2]

theorem onOwn_switchTo (h : OnOwn s) (hne : next ≠ s.current)
    (hready : (s.threads next).state = .ready) : OnOwn (switchTo next s) := by
  have hlive := live_switchTo hne hready
  rcases switchTo_frame hne with ⟨-, -, hpend, hblocks, -⟩
  refine ⟨hpend.trans h.pending, fun i hl hs => ?_⟩
  rw [(switchTo_keeps hne i).2] at hs ⊢
  rcases h.own i ((hlive i).mp hl) hs with ⟨hon, hb⟩
  rw [hblocks, spOf_switchTo hne]
  · exact ⟨hon, hb⟩
  · intro hi
    have := hon.1
    rw [spOf, if_pos hi] at this
    omega

theorem onOwn_schedule (h : OnOwn s) : OnOwn (schedule s) := by
  have hsame := freePending_eq h.pending
  rcases schedule_cases s with heq | ⟨next, hne, hready, heq⟩
  · rw [heq, hsame]
    exact h
  · rw [hsame] at hne hready heq
    rw [heq]
    exact onOwn_switchTo h hne hready

theorem onOwn_create (h : OnOwn s) (hc : Live s s.current) (stack : Nat) :
    OnOwn (create stack s).2 := by
  rcases create_cases stack s with heq | ⟨slot, hdead, h0, heq⟩
  · rw [heq]
    exact h
  rw [heq]
  have hcur : s.current ≠ slot := fun h' => hc (h' ▸ hdead)
  have hself := threads_spawn_self slot stack s
  have hother {i : Fin 32} (hi : i ≠ slot) := threads_spawn_ne stack s hi
  have hsp (i : Fin 32) : spOf (spawn slot stack s) i =
      if i = s.current then s.sp
      else ((spawn slot stack s).threads i).rsp + CONTEXT_SIZE := rfl
  refine ⟨h.pending, fun i hl hs => ?_⟩
  rw [hsp]
  by_cases hi : i = slot
  · -- A new thread starts below its first frame.
    subst hi
    rw [if_neg (Ne.symm hcur), hself]
    refine ⟨?_, _, mem_cons_self, rfl⟩
    simp only [OnStack, fresh, firstSp, CONTEXT_SIZE, THREAD_STACK_SIZE]
    omega
  · rw [Live, hother hi] at hl
    rw [hother hi] at hs ⊢
    rcases h.own i hl hs with ⟨hon, b, hb, hba⟩
    exact ⟨hon, b, mem_cons_of_mem _ hb, hba⟩

theorem freePending_blocks {b : Block} (h : b ∈ s.blocks) :
    ∃ c ∈ (freePending s).blocks, c.addr = b.addr ∧ ∀ sp ∈ b.frees, sp ∈ c.frees := by
  unfold freePending
  split_ifs with hp
  · rcases freeBlock_mem (p := s.pendingFreeStack) h with h' | ⟨-, h'⟩
    · exact ⟨b, h', rfl, fun _ hs => hs⟩
    · exact ⟨_, h', rfl, fun _ hs => mem_append_left _ hs⟩
  · exact ⟨b, h, rfl, fun _ hs => hs⟩

/-- What is left of the table when a thread has retired. -/
theorem onOwn_retire (h : OnOwn s) : OnOwn (freePending (retire s)) := by
  rcases retire_frame s with ⟨hc, -, hsp, hblocks, -, -⟩
  rcases freePending_frame (retire s) with ⟨-, hcur, hsp', -, hpend⟩
  refine ⟨hpend, fun i hl hs => ?_⟩
  rcases live_retire hl with ⟨-, hl, hthread⟩
  rw [hthread] at hs ⊢
  rcases h.own i hl hs with ⟨hon, b, hb, hba⟩
  have hspOf : spOf (freePending (retire s)) i = spOf s i := by
    simp only [spOf, hcur, hc, hsp', hsp, hthread]
  rw [hspOf]
  rcases freePending_blocks (hblocks ▸ hb : b ∈ (retire s).blocks) with ⟨c, hc, hca, -⟩
  exact ⟨hon, c, hc, hca.trans hba⟩

theorem onOwn_exit (h : OnOwn s) : OnOwn (exit s) := by
  have hr := onOwn_retire h
  have hs := onOwn_schedule hr
  have hsched : schedule (freePending (retire s)) = schedule (retire s) := by
    simp only [schedule, freePending_eq hr.pending]
  rw [hsched] at hs
  simp only [exit]
  split_ifs
  · exact ⟨hs.pending, hs.own⟩
  · exact hs

/-- The current thread is alive as long as the machine goes on. -/
def Awake (s : Threads) : Prop := s.halted = false → Live s s.current

/-- After a switch the current thread is alive. -/
theorem awake_switchTo (hne : next ≠ s.current) (hready : (s.threads next).state = .ready) :
    Awake (switchTo next s) := by
  intro _
  rw [(switchTo_frame hne).1, live_switchTo hne hready, Live, hready]
  decide

theorem awake_schedule (h : Awake s) : Awake (schedule s) := by
  rcases freePending_frame s with ⟨hthreads, hcur, -, hhalt, -⟩
  rcases schedule_cases s with heq | ⟨next, hne, hready, heq⟩
  · rw [heq, Awake, Live, hthreads, hcur, hhalt]
    exact h
  · exact heq ▸ awake_switchTo hne hready

theorem awake_step (h : Awake s) (ha : Allowed s o) : Awake (step s o) := by
  cases o with
  | create stack =>
    show Awake (create stack s).2
    rcases create_cases stack s with heq | ⟨slot, hdead, h0, heq⟩
    · rw [heq]
      exact h
    · have hcur := h ha.1
      rw [heq]
      intro _
      show ((spawn slot stack s).threads s.current).state ≠ _
      rw [threads_spawn_ne stack s (show s.current ≠ slot from fun h' => hcur (h' ▸ hdead))]
      exact hcur
  | yieldThread => exact awake_schedule h
  | exit =>
    show Awake (exit s)
    simp only [exit]
    by_cases hc : (schedule (retire s)).current = s.current
    · rw [if_pos hc]
      exact fun h' => absurd h' Bool.true_eq_false.mp
    · rw [if_neg hc]
      -- There has been a switch, and only to a ready thread.
      rcases schedule_cases (retire s) with heq | ⟨next, hne, hready, heq⟩
      · rw [heq, (freePending_frame (retire s)).2.1] at hc
        exact absurd (retire_frame s).1 hc
      · exact heq ▸ awake_switchTo hne hready
  | work sp => exact fun hh => h hh

theorem onOwn_step (h : OnOwn s) (hw : Awake s) (ha : Allowed s o) : OnOwn (step s o) := by
  cases o with
  | create stack => exact onOwn_create h (hw ha.1) stack
  | yieldThread => exact onOwn_schedule h
  | exit => exact onOwn_exit h
  | work sp =>
    refine ⟨h.pending, fun i hl hs => ⟨?_, (h.own i hl hs).2⟩⟩
    show OnStack (s.threads i).stackBase (if i = s.current then sp else _)
    by_cases hi : i = s.current
    · subst hi
      rw [if_pos rfl]
      exact ha.2 hs
    · have := (h.own i hl hs).1
      rw [spOf, if_neg hi] at this
      rw [if_neg hi]
      exact this

/-! ### Safe runs -/

/-- An exit of a thread with a stack from the heap frees it under its feet. -/
theorem not_apart_exit (h : OnOwn s) (hl : Live s s.current)
    (hs : (s.threads s.current).stackBase ≠ 0) : ¬Apart (exit s) := by
  intro hap
  rcases h.own s.current hl hs with ⟨hon, hb⟩
  rw [spOf, if_pos rfl] at hon
  rcases freeBlock_freed s.sp hb with ⟨c, hc, hca, hcs⟩
  refine hap c ?_ s.sp hcs ?_
  · rw [blocks_exit, freePending_retire h.pending hs]
    exact hc
  · rw [hca]
    have h1 := hon.1
    have h2 := hon.2
    omega

/-- Any other step frees nothing. -/
theorem apart_step (h : OnOwn s) (hap : Apart s)
    (hk : o = .exit → (s.threads s.current).stackBase = 0) : Apart (step s o) := by
  cases o with
  | create stack =>
    show Apart (create stack s).2
    rcases create_cases stack s with heq | ⟨slot, _, _, heq⟩
    · rw [heq]
      exact hap
    · rw [heq]
      intro b hb sp hsp
      rcases mem_cons.mp hb with rfl | hb
      · exact absurd hsp not_mem_nil
      · exact hap b hb sp hsp
  | yieldThread =>
    intro b hb
    rw [show (step s .yieldThread).blocks = (freePending s).blocks from blocks_schedule s,
      freePending_eq h.pending] at hb
    exact hap b hb
  | exit =>
    rcases retire_frame s with ⟨-, -, -, hblocks, -, hpend⟩
    intro b hb
    rw [show (step s .exit).blocks = (freePending (retire s)).blocks from blocks_exit s,
      freePending_eq ((hpend h.pending).trans (hk rfl)), hblocks] at hb
    exact hap b hb
  | work sp => exact hap

/-- What has been freed stays freed. -/
theorem not_apart_step (o : Op) (h : ¬Apart s) : ¬Apart (step s o) := by
  have hmono : ∀ b ∈ s.blocks, ∃ c ∈ (step s o).blocks,
      c.addr = b.addr ∧ ∀ sp ∈ b.frees, sp ∈ c.frees := by
    intro b hb
    cases o with
    | create stack =>
      refine ⟨b, ?_, rfl, fun _ h' => h'⟩
      show b ∈ (create stack s).2.blocks
      rcases create_cases stack s with heq | ⟨slot, _, _, heq⟩
      · rw [heq]
        exact hb
      · rw [heq]
        exact mem_cons_of_mem _ hb
    | yieldThread =>
      rw [show (step s .yieldThread).blocks = (freePending s).blocks from blocks_schedule s]
      exact freePending_blocks hb
    | exit =>
      rw [show (step s .exit).blocks = (freePending (retire s)).blocks from blocks_exit s]
      exact freePending_blocks ((retire_frame s).2.2.2.1 ▸ hb)
    | work sp => exact ⟨b, hb, rfl, fun _ h' => h'⟩
  intro hap
  refine h (fun b hb sp hsp => ?_)
  rcases hmono b hb with ⟨c, hc, hca, hcs⟩
  rw [← hca]
  exact hap c hc sp (hcs sp hsp)

instance (s : Threads) (o : Op) : Decidable (system.allows s o) :=
  inferInstanceAs (Decidable (Allowed s o))

theorem not_apart_run {os : List Op} (h : ¬Apart s) (hrun : system.run s os = some t) :
    ¬Apart t := by
  induction os generalizing s with
  | nil => exact Option.some.inj hrun ▸ h
  | cons o os ih =>
    simp only [Machine.run] at hrun
    split_ifs at hrun with ha
    exact ih (not_apart_step o h) hrun

theorem apart_run {os : List Op} (h : OnOwn s) (hw : Awake s) (hap : Apart s)
    (hrun : system.run s os = some t) : Apart t ↔ KeepsStacks s os := by
  induction os generalizing s with
  | nil =>
    rw [← Option.some.inj hrun]
    exact ⟨fun _ => trivial, fun _ => hap⟩
  | cons o os ih =>
    simp only [Machine.run] at hrun
    split_ifs at hrun with ha
    by_cases hk : o = .exit → (s.threads s.current).stackBase = 0
    · have hrest := ih (onOwn_step h hw ha) (awake_step hw ha) (apart_step h hap hk) hrun
      exact hrest.trans ⟨fun h' => ⟨hk, h'⟩, fun h' => h'.2⟩
    · -- The stack of the thread is freed here, which the rest of the run keeps.
      refine ⟨fun hat => ?_, fun h' => absurd h'.1 hk⟩
      rcases Classical.not_imp.mp hk with ⟨rfl, hs⟩
      exact absurd hat (not_apart_run (not_apart_exit h (hw ha) hs) hrun)

/-- A run frees no stack in use exactly if it keeps them all. -/
theorem apart_iff (sp : Nat) (os : List Op) (s : Threads)
    (hrun : system.run (init (boot sp)) os = some s) :
    Apart s ↔ KeepsStacks (init (boot sp)) os := by
  have hinv := inv_start sp
  refine apart_run ⟨rfl, fun i hl hs => ?_⟩ (fun _ => ?_) ?_ hrun
  · by_cases hi : i = 0
    · exact absurd (hi ▸ hinv.zeroStack) hs
    · exact absurd (hinv.held i hi hl).2.choose_spec.1 not_mem_nil
  · exact hinv.zero
  · exact forall_mem_nil _

theorem apart_iff_twoThreads :
    ∃ s, system.run (init (boot 0x9000)) (twoThreads.take 3) = some s ∧ Apart s := by
  refine ⟨_, rfl, (apart_iff 0x9000 (twoThreads.take 3) _ rfl).mpr ?_⟩
  exact ⟨fun h => absurd h (by decide), fun h => absurd h (by decide),
    fun h => absurd h (by decide), trivial⟩

/-- The first thread that exits frees its stack with the stack pointer on
    it. -/
theorem freed_in_use :
    ∃ s, system.run (init (boot 0x9000)) twoThreads = some s ∧ ¬Apart s := by
  refine ⟨_, rfl, fun h => ?_⟩
  exact h { addr := 0x20000, frees := [0x20FF8] } (by decide) 0x20FF8 mem_cons_self
    (by decide)

end SysRust.Threads
