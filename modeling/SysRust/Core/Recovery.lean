import Mathlib.Data.BitVec
import Mathlib.Logic.Function.Basic
import SysRust.Lib.Machine

/-!
# Protected Programs

`run_protected` of `recovery.rs` runs a program in a thread of its own and
waits for it. The two threads share three variables: the caller sets
`CHILD_ENTRY` and clears `CHILD_DONE`, the child reads the entry, runs it,
and stores its result and the flag; `sys_exit` does the same from within the
program. The caller waits for the flag, or for the thread to be gone, and
returns the result.

A program may itself call `run_protected`, through `run_program`. Threads
take turns at any point, so every access to a shared variable is a step of
its own, and any live thread may take the next one. What a program does
between its calls is left open: it calls, it finishes with some value, or it
is killed by an exception.

Threads are counted in the order of their creation, and thread 0 is the
shell. The number `thread::create` gives a thread is this count in 32 bits.
It returns the number as an `i32`, so from some thread on it is negative,
which `run_protected` takes for a failure although the thread exists.

## Main definitions

* `Pc`, `Wait`: Where a call of `run_protected` is.
* `Activity`: What a thread is doing.
* `Recovery`: The shared variables and the threads.
* `tidOf`: The number of a thread.
* `exec`: A step of a thread.
* `Returned`: A call that has returned.
-/

namespace SysRust

/-- The next access of a call of `run_protected`, with its child. -/
inductive Pc where
  | setEntry
  | clearResult
  | clearDone
  | create
  | checkDone (child : Nat)
  | checkAlive (child : Nat)
  | readResult (child : Nat)
deriving DecidableEq

/-- A call of `run_protected` that has not returned. -/
structure Wait where
  entry : Nat
  pc : Pc
deriving DecidableEq

/-- What a thread is doing. `child_wrapper` stores the result of its program,
    then sets the flag, then exits. -/
inductive Activity where
  | absent
  | wrapper
  | program (entry : Nat)
  | waiting (entry : Nat) (call : Wait)
  | storing (entry : Nat) (result : BitVec 32)
  | signalling (entry : Nat) (result : BitVec 32)
  | exiting (entry : Nat) (result : BitVec 32)
  | finished (entry : Nat) (result : BitVec 32)
  | killed (entry : Nat)
deriving DecidableEq

/-- The thread is in the thread table. -/
def Activity.isAlive : Activity → Bool
  | .absent => false
  | .finished _ _ => false
  | .killed _ => false
  | _ => true

/-- A call that has returned, and what its child was doing then. There is no
    child if it could not be created. -/
structure Returned where
  entry : Nat
  child : Option Activity
  value : BitVec 32
deriving DecidableEq

structure Recovery where
  childDone : BitVec 32
  childResult : BitVec 32
  childEntry : Nat
  threads : Nat → Activity
  created : Nat
  returns : List Returned

namespace Recovery

/-- The shell is the only thread. -/
def boot : Recovery where
  childDone := 0
  childResult := 0
  childEntry := 0
  threads := fun i => if i = 0 then .program 0 else .absent
  created := 1
  returns := []

/-- The number of the thread that was created after `n` others. -/
def tidOf (n : Nat) : BitVec 32 := BitVec.ofNat 32 n

/-- `thread::is_alive`: some live thread has the number. -/
def isAlive (tid : BitVec 32) (s : Recovery) : Bool :=
  (List.range s.created).any (fun j => (s.threads j).isAlive && tidOf j == tid)

/-- A thread goes on with something else. -/
def goOn (i : Nat) (a : Activity) (s : Recovery) : Recovery :=
  { s with threads := Function.update s.threads i a }

/-- A call returns to the program that made it. -/
def giveBack (i caller entry : Nat) (child : Option Activity) (value : BitVec 32)
    (s : Recovery) : Recovery :=
  { goOn i (.program caller) s with
    returns := s.returns ++ [{ entry := entry, child := child, value := value }] }

/-- The next access of a call of `run_protected`; `ok` is whether a thread
    can be created. -/
def advance (i caller : Nat) (call : Wait) (ok : Bool) (s : Recovery) : Recovery :=
  let next (pc : Pc) (s : Recovery) : Recovery := goOn i (.waiting caller { call with pc := pc }) s
  match call.pc with
  | .setEntry => next .clearResult { s with childEntry := call.entry }
  | .clearResult => next .clearDone { s with childResult := -99 }
  | .clearDone => next .create { s with childDone := 0 }
  | .create =>
    let child := s.created
    let t := { goOn child .wrapper s with created := s.created + 1 }
    if ok = false then giveBack i caller call.entry none (-99) s
    else if (tidOf child).toInt < 0 then giveBack i caller call.entry (some .wrapper) (-99) t
    else next (.checkDone child) t
  | .checkDone child =>
    if s.childDone ≠ 0 then next (.readResult child) s else next (.checkAlive child) s
  | .checkAlive child =>
    if s.isAlive (tidOf child) then next (.checkDone child) s else next (.readResult child) s
  | .readResult child => giveBack i caller call.entry (some (s.threads child)) s.childResult s

/-- What a thread may do next: call `run_protected`, finish with a value,
    be killed, or go on with what it is doing. -/
inductive Act where
  | call (entry : Nat)
  | finish (result : BitVec 32)
  | fault
  | go (ok : Bool)
deriving DecidableEq

/-- A step of a thread. The shell does not finish and is not killed. -/
def exec (s : Recovery) (o : Nat × Act) : Option Recovery :=
  match s.threads o.1, o.2 with
  | .program p, .call entry =>
    some (goOn o.1 (.waiting p { entry := entry, pc := .setEntry }) s)
  | .program p, .finish v => if o.1 = 0 then none else some (goOn o.1 (.storing p v) s)
  | .program p, .fault => if o.1 = 0 then none else some (goOn o.1 (.killed p) s)
  | .waiting p call, .go ok => some (advance o.1 p call ok s)
  | .wrapper, .go _ => some (goOn o.1 (.program s.childEntry) s)
  | .storing p v, .go _ => some (goOn o.1 (.signalling p v) { s with childResult := v })
  | .signalling p v, .go _ => some (goOn o.1 (.exiting p v) { s with childDone := 1 })
  | .exiting p v, .go _ => some (goOn o.1 (.finished p v) s)
  | _, _ => none

/-- The threads from the shell on, in any order of steps. -/
def system : Machine Recovery (Nat × Act) where
  start := fun s => s = boot
  allows := fun s o => (exec s o).isSome = true
  exec := exec

end Recovery

end SysRust
