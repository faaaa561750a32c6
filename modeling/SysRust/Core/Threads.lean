import Mathlib.Algebra.GroupWithZero.Nat
import Mathlib.Data.List.FinRange
import SysRust.Lib.Machine

/-!
# The Thread Scheduler

The round-robin scheduler of `thread.rs`: a table of 32 threads, one of them
running. A thread other than thread 0 has a stack of its own from the heap.
`exit` leaves its stack to `schedule`, which frees it.

Addresses are numbers, and zero is the null pointer. What `kmalloc` returns
is up to the heap, so it is an argument of `create`. Two things are added to
what the source keeps: the stack pointer of the processor, which
`context_switch` exchanges, and every stack that has been allocated, with the
stack pointer at each time it was freed.

`exit` does not return. If it finds no thread to switch to it halts for ever,
and the machine takes no more steps.

## Main definitions

* `ThreadState`, `Thread`, `Threads`: The thread table.
* `Block`: A stack that has been allocated.
* `init`, `create`, `schedule`, `yieldThread`, `exit`, `isAlive`: The
  functions of the source.
* `threads`: The steps of the running thread.
-/

namespace SysRust

inductive ThreadState where
  | ready
  | running
  | blocked
  | dead
deriving DecidableEq

structure Thread where
  id : BitVec 32
  rsp : Nat
  state : ThreadState
  stackBase : Nat
deriving DecidableEq

/-- A stack from the heap, and the stack pointer at each time it was freed. -/
structure Block where
  addr : Nat
  frees : List Nat
deriving DecidableEq

/-- The thread table. `blocks` has the newest block first. -/
structure Threads where
  threads : Fin 32 → Thread
  current : Fin 32
  nextId : BitVec 32
  pendingFreeStack : Nat
  sp : Nat
  blocks : List Block
  halted : Bool

namespace Threads

scoped instance neZero32 : NeZero 32 := ⟨by decide⟩

def THREAD_STACK_SIZE : Nat := 4096

/-- Every slot as it is in the kernel image. -/
def DEAD_THREAD : Thread where
  id := 0
  rsp := 0
  state := .dead
  stackBase := 0

/-- Before `init`, on the boot stack. -/
def boot (sp : Nat) : Threads where
  threads := fun _ => DEAD_THREAD
  current := 0
  nextId := 1
  pendingFreeStack := 0
  sp := sp
  blocks := []
  halted := false

/-- Change one slot of the table. -/
def setThread (i : Fin 32) (t : Thread) (s : Threads) : Threads :=
  { s with threads := Function.update s.threads i t }

def init (s : Threads) : Threads :=
  { s with
    threads := fun i =>
      if i = 0 then { id := 0, rsp := 0, state := .running, stackBase := 0 }
      else { s.threads i with state := .dead }
    current := 0
    nextId := 1 }

/-- The first slot that is free. -/
def freeSlot (s : Threads) : Option (Fin 32) :=
  (List.finRange 32).find? (fun i => (s.threads i).state == .dead)

/-- Where a new thread's stack pointer is: below the addresses of `exit` and
    `entry` and six saved registers. -/
def firstSp (stack : Nat) : Nat := stack + THREAD_STACK_SIZE - 64

/-- The thread in a new slot. -/
def fresh (stack : Nat) (s : Threads) : Thread where
  id := s.nextId
  rsp := firstSp stack
  state := .ready
  stackBase := stack

/-- Fill a slot with a new thread. -/
def spawn (slot : Fin 32) (stack : Nat) (s : Threads) : Threads :=
  { setThread slot (s.fresh stack) s with
    nextId := s.nextId + 1
    blocks := { addr := stack, frees := [] } :: s.blocks }

/-- Spawn a thread; `stack` is what `kmalloc` returns if it is called. -/
def create (stack : Nat) (s : Threads) : Int × Threads :=
  match s.freeSlot with
  | none => (-1, s)
  | some slot =>
    if stack = 0 then (-1, s)
    else (s.nextId.toInt, spawn slot stack s)

/-- Free the newest block at an address. -/
def freeBlock (p sp : Nat) : List Block → List Block
  | [] => []
  | b :: bs =>
    if b.addr = p then { b with frees := b.frees ++ [sp] } :: bs else b :: freeBlock p sp bs

def kfree (p : Nat) (s : Threads) : Threads := { s with blocks := freeBlock p s.sp s.blocks }

/-- The bytes `context_switch` and the call of it push. -/
def CONTEXT_SIZE : Nat := 56

/-- Save the stack pointer of one thread and load the one of another. -/
def contextSwitch (old next : Fin 32) (s : Threads) : Threads :=
  { setThread old { s.threads old with rsp := s.sp - CONTEXT_SIZE } s with
    sp := (s.threads next).rsp + CONTEXT_SIZE }

/-- The slots after `old`, in a circle and ending with `old`. -/
def candidates (old : Fin 32) : List (Fin 32) :=
  (List.range 32).map (fun i => old + Fin.ofNat 32 (i + 1))

/-- Free the stack that the last `exit` has left. -/
def freePending (s : Threads) : Threads :=
  if s.pendingFreeStack ≠ 0 then { kfree s.pendingFreeStack s with pendingFreeStack := 0 } else s

/-- The first ready thread behind the running one, which may be none. -/
def pick (s : Threads) : Fin 32 :=
  ((candidates s.current).find? (fun i => (s.threads i).state == .ready)).getD s.current

/-- Let another thread run. -/
def switchTo (next : Fin 32) (s : Threads) : Threads :=
  let old := s.current
  let s :=
    if (s.threads old).state = .running then
      setThread old { s.threads old with state := .ready } s
    else s
  let s := setThread next { s.threads next with state := .running } s
  contextSwitch old next { s with current := next }

def schedule (s : Threads) : Threads :=
  let s := freePending s
  if pick s = s.current then s else switchTo (pick s) s

def yieldThread (s : Threads) : Threads := schedule s

/-- The current thread as `exit` leaves it. -/
def retire (s : Threads) : Threads :=
  let cur := s.current
  let s := setThread cur { s.threads cur with state := .dead } s
  if (s.threads cur).stackBase ≠ 0 then
    { setThread cur { s.threads cur with stackBase := 0 } s with
      pendingFreeStack := (s.threads cur).stackBase }
  else s

/-- Terminate the current thread. Coming back from `schedule` is the end. -/
def exit (s : Threads) : Threads :=
  let t := schedule (retire s)
  if t.current = s.current then { t with halted := true } else t

def isAlive (id : BitVec 32) (s : Threads) : Bool :=
  (List.finRange 32).any (fun i => (s.threads i).state != .dead && (s.threads i).id == id)

/-! ### Runs -/

/-- The steps of the running thread. -/
inductive Op where
  | create (stack : Nat)
  | yieldThread
  | exit
  | work (sp : Nat)
deriving DecidableEq

/-- The stack pointer is on the stack at `base`, with room for a switch. -/
def OnStack (base sp : Nat) : Prop :=
  base + CONTEXT_SIZE ≤ sp ∧ sp + 8 ≤ base + THREAD_STACK_SIZE

instance (base sp : Nat) : Decidable (OnStack base sp) := inferInstanceAs (Decidable (_ ∧ _))

/-- The heap returns null or a block that is not in use, and a thread with a
    stack from the heap stays on it. -/
def Allowed (s : Threads) : Op → Prop
  | .create stack => s.halted = false ∧ (stack = 0 ∨ ∀ b ∈ s.blocks, b.addr = stack → b.frees ≠ [])
  | .yieldThread => s.halted = false
  | .exit => s.halted = false
  | .work sp =>
    s.halted = false ∧
      ((s.threads s.current).stackBase ≠ 0 → OnStack (s.threads s.current).stackBase sp)

instance (s : Threads) : ∀ o, Decidable (Allowed s o)
  | .create _ => inferInstanceAs (Decidable (_ ∧ (_ ∨ _)))
  | .yieldThread => inferInstanceAs (Decidable (_ = _))
  | .exit => inferInstanceAs (Decidable (_ = _))
  | .work _ => inferInstanceAs (Decidable (_ ∧ (_ → _)))

def step (s : Threads) : Op → Threads
  | .create stack => (create stack s).2
  | .yieldThread => yieldThread s
  | .exit => exit s
  | .work sp => { s with sp := sp }

/-- The threads from `init` on. -/
def system : Machine Threads Op where
  start := fun s => ∃ sp, s = init (boot sp)
  allows := Allowed
  exec := fun s o => some (step s o)

end Threads

end SysRust
