import SysRust.Theory.Net.TcpUsers

/-!
# Who Owns a TCP Slot

Any number of calls of `connect`, each with its wait loop and the `close`
that may follow it, over the four slots of the connection table. The steps
of the calls, incoming segments and the timer are interleaved in any order.

A call takes a slot with `tcp_alloc_conn`, which looks for one that is not
in use, and remembers its index only. Nothing in the table says whose a slot
is, so a slot is safe exactly as long as `in_use` stays set until the call
that took it is done. `connect` and `close` clear the flag when they are
done. A reset clears it as well, at any time, and behind the back of a call
that still waits on the slot: the next `connect` takes the slot, and when it
is connected both calls see the flag and return the same id.

The owner of a slot is the call that took it, for as long as the slot has
been in use since. As long as no reset arrives for a connection in use, every
call owns its slot to its end, and then no two calls hold one id and a call
that times out gives back its own slot.

## Main definitions

* `Call`: Where a call of `connect`, or the `close` of its connection, is.
* `Net`, `Event`, `calls`: The table, the calls, and everything that happens.
* `OneOwner`: The property of every state.
* `NoReset`: No reset arrives for a connection in use.
* `Owned`: Every call that is not done owns its slot, and slots in use have
  owners.

## Theorems

* `rx_inUse`: Segments other than resets free no slot.
* `move_of_step`: What a step can do to slots and calls.
* `owned_move`: Every such step keeps `Owned`.
* `oneOwner_reachable`: One owner per slot, without resets.
* `oneOwner_reset`: After a reset two calls return the same id.
-/

namespace SysRust.Tcp

open Function Option

namespace Owners

/-- A call of `connect` and the life of its connection. -/
inductive Call where
  | idle
  | waiting (w : Waiting)
  | connected (i : Fin TCP_MAX_CONNS)
  | closing (i : Fin TCP_MAX_CONNS) (phase : Closing)
  | done
deriving DecidableEq

/-- The slot the call works on. -/
def Call.slot : Call → Option (Fin TCP_MAX_CONNS)
  | .idle => none
  | .waiting w => some w.slot
  | .connected i => some i
  | .closing i _ => some i
  | .done => none

/-- The id the call has returned, until the connection is closed. -/
def Call.returned : Call → Option (Fin TCP_MAX_CONNS)
  | .connected i => some i
  | .closing i _ => some i
  | _ => none

/-- The table, the timer and the calls, and for each slot the call that took
    it, unless it has been free since. -/
structure Net where
  stack : Stack
  ticks : Nat
  calls : Nat → Call
  owner : Fin TCP_MAX_CONNS → Option Nat

inductive Event where
  | connect (c : Nat) (remoteIp remotePort : Nat)
  | poll (c : Nat)
  | close (c : Nat)
  | closePoll (c : Nat)
  | rx (srcIp : Nat) (seg : Segment)
  | tick

namespace Net

/-- Slots that are not in use have no owner. -/
def settle (conns : Conns) (owner : Fin TCP_MAX_CONNS → Option Nat) :
    Fin TCP_MAX_CONNS → Option Nat :=
  fun i => if (conns i).inUse then owner i else none

/-- The call goes on with this table. -/
def goOn (s : Net) (c : Nat) (conns : Conns) (next : Call) : Net :=
  { s with
    stack := { s.stack with conns := conns }
    calls := Function.update s.calls c next
    owner := settle conns s.owner }

def onConnect (s : Net) (c remoteIp remotePort : Nat) : Net :=
  match connectStart remoteIp remotePort s.ticks s.stack with
  | none => { s with calls := Function.update s.calls c .done }
  | some (stack, w, _) =>
    { s with
      stack := stack
      calls := Function.update s.calls c (.waiting w)
      owner := Function.update s.owner w.slot (some c) }

/-- A call after a turn of the wait loop of `connect`. -/
def polled : Polled → Call
  | .returns i => .connected i
  | .waits w _ => .waiting w
  | .timesOut => .done

def onPoll (s : Net) (c : Nat) (w : Waiting) : Net :=
  let r := connectPoll s.ticks w s.stack.conns
  s.goOn c r.1 (polled r.2)

/-- A call after a step of its `close`. -/
def closed (i : Fin TCP_MAX_CONNS) : Option Closing → Call
  | none => .done
  | some p => .closing i p

def onClose (s : Net) (c : Nat) (i : Fin TCP_MAX_CONNS) : Net :=
  let r := closeStart s.ticks i s.stack.conns
  s.goOn c r.1 (closed i r.2.1)

def onClosePoll (s : Net) (c : Nat) (i : Fin TCP_MAX_CONNS) (p : Closing) : Net :=
  let r := closePoll s.ticks i s.stack.conns p
  s.goOn c r.1 (closed i r.2)

def onRx (s : Net) (srcIp : Nat) (seg : Segment) : Net :=
  let conns := (rx srcIp seg s.stack.conns).1
  { s with
    stack := { s.stack with conns := conns }
    owner := settle conns s.owner }

/-- The state after `init`, before any call. -/
def boot : Net where
  stack := Stack.init
  ticks := 0
  calls := fun _ => .idle
  owner := fun _ => none

def exec (s : Net) : Event → Option Net
  | .connect c remoteIp remotePort =>
    match s.calls c with
    | .idle => some (s.onConnect c remoteIp remotePort)
    | _ => none
  | .poll c =>
    match s.calls c with
    | .waiting w => some (s.onPoll c w)
    | _ => none
  | .close c =>
    match s.calls c with
    | .connected i => some (s.onClose c i)
    | _ => none
  | .closePoll c =>
    match s.calls c with
    | .closing i p => some (s.onClosePoll c i p)
    | _ => none
  | .rx srcIp seg => some (s.onRx srcIp seg)
  | .tick => some { s with ticks := u32 (s.ticks + 1) }

end Net

/-- Every interleaving: a call takes the steps of its own phase, segments and
    timer interrupts come at any time. -/
def calls : Machine Net Event where
  start := fun s => s = Net.boot
  allows := fun _ _ => True
  exec := Net.exec

/-- No two calls hold the same id, and a call that is about to time out still
    owns the slot it will give back. -/
structure OneOwner (s : Net) : Prop where
  distinct : ∀ c d i, (s.calls c).returned = some i → (s.calls d).returned = some i → c = d
  timeout : ∀ c w, s.calls c = .waiting w → (connectPoll s.ticks w s.stack.conns).2 = .timesOut →
    s.owner w.slot = some c

/-- No reset arrives for a connection in use. -/
def NoReset (s : Net) : Event → Prop
  | .rx srcIp seg => hasFlag seg.flags TCP_RST = true →
      tcpFindConn s.stack.conns srcIp seg.srcPort seg.dstPort = none
  | _ => True

/-! ### Slots in use -/

variable {conns : Conns} {i : Fin TCP_MAX_CONNS} {s t : Net} {c : Nat}

theorem rxConn_inUse {seg : Segment} (hreset : hasFlag seg.flags TCP_RST = false) (c : TcpConn) :
    (rxConn seg c).1.inUse = c.inUse := by
  rcases rxConn_cases seg c with ⟨hr, _⟩ | ⟨_, hs⟩
  · exact absurd (hreset.symm.trans hr) Bool.false_ne_true
  · exact hs.inUse

/-- A segment other than a reset leaves every `in_use` as it is. -/
theorem rx_inUse {srcIp : Nat} {seg : Segment} (h : NoReset s (.rx srcIp seg))
    (i : Fin TCP_MAX_CONNS) :
    ((rx srcIp seg s.stack.conns).1 i).inUse = (s.stack.conns i).inUse := by
  unfold rx
  cases hfind : tcpFindConn s.stack.conns srcIp seg.srcPort seg.dstPort with
  | none => rfl
  | some k =>
    have hreset : hasFlag seg.flags TCP_RST = false := by
      rw [← Bool.not_eq_true]
      intro hr
      rw [h hr] at hfind
      cases hfind
    simp only
    by_cases hik : i = k
    · rw [hik, update_self]
      exact rxConn_inUse hreset _
    · rw [update_of_ne hik]

/-! ### The owner of a slot -/

/-- A call works on a slot exactly if it owns it, and owned slots are in use. -/
structure Owned (s : Net) : Prop where
  owns : ∀ c i, (s.calls c).slot = some i ↔ s.owner i = some c
  used : ∀ i c, s.owner i = some c → (s.stack.conns i).inUse = true

variable {owner : Fin TCP_MAX_CONNS → Option Nat}

theorem settle_of_inUse (h : (conns i).inUse = true) : Net.settle conns owner i = owner i :=
  if_pos h

theorem settle_of_free (h : (conns i).inUse = false) : Net.settle conns owner i = none :=
  if_neg (by rw [h]; exact Bool.false_ne_true)

/-- Owners survive as long as their slots stay in use. -/
theorem settle_iff (h : Owned s) (huse : (conns i).inUse = (s.stack.conns i).inUse) :
    Net.settle conns s.owner i = some c ↔ s.owner i = some c := by
  constructor
  · intro hs
    by_cases hi : (conns i).inUse = true
    · rwa [settle_of_inUse hi] at hs
    · rw [settle_of_free (Bool.not_eq_true _ ▸ hi)] at hs
      cases hs
  · intro hs
    rwa [settle_of_inUse (huse.trans (h.used i c hs))]

theorem settle_self (h : Owned s) : Net.settle s.stack.conns s.owner = s.owner := by
  funext i
  cases howner : s.owner i with
  | none =>
    simp only [Net.settle, howner]
    exact ite_self _
  | some d => exact (settle_of_inUse (h.used i d howner)).trans howner

/-! ### What a step can do -/

/-- The effect of a step on slots and calls. -/
inductive Move (s t : Net) : Prop
  /-- Every call goes on with the slot it has. -/
  | keeps (hslots : ∀ c, (t.calls c).slot = (s.calls c).slot)
      (huse : ∀ i, (t.stack.conns i).inUse = (s.stack.conns i).inUse)
      (howner : t.owner = Net.settle t.stack.conns s.owner)
  /-- A call takes a free slot. -/
  | takes (c : Nat) (i : Fin TCP_MAX_CONNS) (hidle : (s.calls c).slot = none)
      (hfree : (s.stack.conns i).inUse = false) (hslot : (t.calls c).slot = some i)
      (huse : (t.stack.conns i).inUse = true)
      (hcalls : ∀ d, d ≠ c → t.calls d = s.calls d)
      (hrest : ∀ j, j ≠ i → t.stack.conns j = s.stack.conns j)
      (howner : t.owner = Function.update s.owner i (some c))
  /-- A call gives its slot back. -/
  | frees (c : Nat) (i : Fin TCP_MAX_CONNS) (hslot : (s.calls c).slot = some i)
      (hdone : (t.calls c).slot = none) (huse : (t.stack.conns i).inUse = false)
      (hcalls : ∀ d, d ≠ c → t.calls d = s.calls d)
      (hrest : ∀ j, j ≠ i → t.stack.conns j = s.stack.conns j)
      (howner : t.owner = Net.settle t.stack.conns s.owner)

theorem goOn_self (s : Net) (c : Nat) (conns : Conns) (next : Call) :
    (s.goOn c conns next).calls c = next :=
  update_self _ _ _

theorem goOn_of_ne (s : Net) {d : Nat} (hd : d ≠ c) (conns : Conns) (next : Call) :
    (s.goOn c conns next).calls d = s.calls d :=
  update_of_ne hd _ _

/-- A call that goes on with its slot, in a table with the same slots in use. -/
theorem move_goOn_keeps {next : Call} (hslot : next.slot = (s.calls c).slot)
    (huse : ∀ i, (conns i).inUse = (s.stack.conns i).inUse) : Move s (s.goOn c conns next) := by
  refine Move.keeps (fun d => ?_) huse rfl
  by_cases hd : d = c
  · rw [hd, goOn_self]
    exact hslot
  · rw [goOn_of_ne s hd]

/-- A call that is done with its slot. -/
theorem move_goOn_frees (hslot : (s.calls c).slot = some i) :
    Move s (s.goOn c (Function.update s.stack.conns i (release (s.stack.conns i))) .done) := by
  have huse : (Function.update s.stack.conns i (release (s.stack.conns i)) i).inUse = false := by
    rw [update_self]
    rfl
  refine Move.frees c i hslot ?_ huse (fun d hd => goOn_of_ne s hd _ _)
    (fun j hj => update_of_ne hj _ _) rfl
  rw [goOn_self]
  rfl

theorem move_connect (h : Owned s) (hc : s.calls c = .idle) (remoteIp remotePort : Nat) :
    Move s (s.onConnect c remoteIp remotePort) := by
  unfold Net.onConnect connectStart
  cases halloc : tcpAllocConn s.stack.conns with
  | none =>
    -- No slot is free, and the call fails.
    refine Move.keeps (fun d => ?_) (fun _ => rfl) (settle_self h).symm
    by_cases hd : d = c
    · simp only [hd, update_self, hc]
      rfl
    · simp only [update_of_ne hd]
  | some i =>
    refine Move.takes c i ?_ (Users.tcpAllocConn_free halloc) ?_ ?_
      (fun d hd => update_of_ne hd _ _) (fun j hj => update_of_ne hj _ _) rfl
    · rw [hc]
      rfl
    · simp only [update_self]
      rfl
    · simp only [update_self]
      rfl

theorem move_poll {w : Waiting} (hc : s.calls c = .waiting w) : Move s (s.onPoll c w) := by
  have hslot : (s.calls c).slot = some w.slot := by rw [hc]; rfl
  unfold Net.onPoll
  rcases Users.connectPoll_cases s.ticks w s.stack.conns with hr | ⟨w', out, hr, hw, _⟩ | hr
  · rw [hr]
    exact move_goOn_keeps hslot.symm (fun _ => rfl)
  · rw [hr]
    exact move_goOn_keeps ((congrArg some hw).trans hslot.symm) (fun _ => rfl)
  · rw [hr]
    exact move_goOn_frees hslot

theorem move_close (hc : s.calls c = .connected i) : Move s (s.onClose c i) := by
  have hslot : (s.calls c).slot = some i := by rw [hc]; rfl
  have hcases := Users.closeStart_cases s.ticks i s.stack.conns
  unfold Net.onClose
  generalize closeStart s.ticks i s.stack.conns = r at hcases
  cases hcases with
  | free hfree =>
    -- The slot is free already, and the call is done.
    refine Move.frees c i hslot ?_ hfree (fun d hd => goOn_of_ne s hd _ _) (fun _ _ => rfl) rfl
    rw [goOn_self]
    rfl
  | fin =>
    refine move_goOn_keeps hslot.symm (fun j => ?_)
    simp only
    by_cases hj : j = i
    · rw [hj, update_self]
    · rw [update_of_ne hj]
  | lingers => exact move_goOn_keeps hslot.symm (fun _ => rfl)
  | gives => exact move_goOn_frees hslot

theorem move_closePoll {p : Closing} (hc : s.calls c = .closing i p) :
    Move s (s.onClosePoll c i p) := by
  have hslot : (s.calls c).slot = some i := by rw [hc]; rfl
  unfold Net.onClosePoll
  rcases Users.closePoll_cases s.ticks i s.stack.conns p with ⟨p', hr⟩ | hr
  · rw [hr]
    exact move_goOn_keeps hslot.symm (fun _ => rfl)
  · rw [hr]
    exact move_goOn_frees hslot

/-! ### Whole runs -/

theorem owned_move (h : Owned s) (hm : Move s t) : Owned t := by
  cases hm with
  | keeps hslots huse howner =>
    refine ⟨fun c i => ?_, fun i c hc => ?_⟩
    · rw [hslots, howner, settle_iff h (huse i)]
      exact h.owns c i
    · rw [howner, settle_iff h (huse i)] at hc
      exact (huse i).trans (h.used i c hc)
  | takes c i hidle hfree hslot huse hcalls hrest howner =>
    -- The slot was free, so nobody owned it.
    have hnobody : ∀ d, s.owner i ≠ some d := by
      intro d hd
      have hin := h.used i d hd
      rw [hfree] at hin
      exact Bool.false_ne_true hin
    refine ⟨fun d j => ?_, fun j d hd => ?_⟩
    · rw [howner]
      by_cases hd : d = c
      · rw [hd, hslot]
        by_cases hj : j = i
        · rw [hj, update_self]
          exact ⟨fun _ => rfl, fun _ => rfl⟩
        · rw [update_of_ne hj, ← h.owns c j, hidle]
          simp only [some.injEq, reduceCtorEq, iff_false]
          exact fun he => hj he.symm
      · rw [hcalls d hd]
        by_cases hj : j = i
        · rw [hj, update_self, h.owns d i]
          exact ⟨fun ho => absurd ho (hnobody d), fun he => absurd (some.inj he).symm hd⟩
        · rw [update_of_ne hj]
          exact h.owns d j
    · by_cases hj : j = i
      · rw [hj]
        exact huse
      · rw [howner, update_of_ne hj] at hd
        rw [hrest j hj]
        exact h.used j d hd
  | frees c i hslot hdone huse hcalls hrest howner =>
    have hrest' : ∀ j, j ≠ i → (t.stack.conns j).inUse = (s.stack.conns j).inUse :=
      fun j hj => by rw [hrest j hj]
    have howns := (h.owns c i).mp hslot
    refine ⟨fun d j => ?_, fun j d hd => ?_⟩
    · rw [howner]
      by_cases hj : j = i
      · -- The freed slot has no owner, and no call works on it any more.
        rw [hj, settle_of_free huse]
        refine ⟨fun hd => ?_, fun hn => absurd hn ?_⟩
        swap
        · simp only [reduceCtorEq, not_false_eq_true]
        by_cases hdc : d = c
        · rw [hdc, hdone] at hd
          cases hd
        · rw [hcalls d hdc, h.owns d i, howns] at hd
          exact absurd (some.inj hd).symm hdc
      · rw [settle_iff h (hrest' j hj)]
        by_cases hdc : d = c
        · rw [hdc, hdone, ← h.owns c j, hslot]
          simp only [reduceCtorEq, some.injEq, false_iff]
          exact fun he => hj he.symm
        · rw [hcalls d hdc]
          exact h.owns d j
    · by_cases hj : j = i
      · rw [howner, hj, settle_of_free huse] at hd
        cases hd
      · rw [howner, settle_iff h (hrest' j hj)] at hd
        rw [hrest j hj]
        exact h.used j d hd

/-- What a step can do, if it is not a reset of a connection in use. -/
theorem move_of_step {e : Event} (h : Owned s) (hr : NoReset s e) (he : s.exec e = some t) :
    Move s t := by
  cases e with
  | connect c remoteIp remotePort =>
    cases hc : s.calls c with
    | idle =>
      simp only [Net.exec, hc, some.injEq] at he
      exact he ▸ move_connect h hc remoteIp remotePort
    | waiting | connected | closing | done =>
      simp only [Net.exec, hc, reduceCtorEq] at he
  | poll c =>
    cases hc : s.calls c with
    | waiting w =>
      simp only [Net.exec, hc, some.injEq] at he
      exact he ▸ move_poll hc
    | idle | connected | closing | done => simp only [Net.exec, hc, reduceCtorEq] at he
  | close c =>
    cases hc : s.calls c with
    | connected i =>
      simp only [Net.exec, hc, some.injEq] at he
      exact he ▸ move_close hc
    | idle | waiting | closing | done => simp only [Net.exec, hc, reduceCtorEq] at he
  | closePoll c =>
    cases hc : s.calls c with
    | closing i p =>
      simp only [Net.exec, hc, some.injEq] at he
      exact he ▸ move_closePoll hc
    | idle | waiting | connected | done => simp only [Net.exec, hc, reduceCtorEq] at he
  | rx srcIp seg =>
    simp only [Net.exec, some.injEq] at he
    exact he ▸ Move.keeps (fun _ => rfl) (rx_inUse hr) rfl
  | tick =>
    simp only [Net.exec, some.injEq] at he
    exact he ▸ Move.keeps (fun _ => rfl) (fun _ => rfl) (settle_self h).symm

theorem owned_boot : Owned Net.boot := by
  refine ⟨fun c i => ?_, fun i c hc => ?_⟩
  · simp only [Net.boot, Call.slot, reduceCtorEq]
  · simp only [Net.boot, reduceCtorEq] at hc

theorem owned_reachable (hs : (calls.restrict NoReset).Reachable s) : Owned s := by
  refine Machine.Reachable.invariant Owned ?_ ?_ hs
  · rintro s rfl
    exact owned_boot
  · rintro s t e h ⟨_, hr⟩ he
    exact owned_move h (move_of_step h hr he)

theorem slot_of_returned {c : Call} (h : c.returned = some i) : c.slot = some i := by
  cases c with
  | connected | closing => exact h
  | idle | waiting | done => simp only [Call.returned, reduceCtorEq] at h

/-- In every run without a reset for a connection in use, no two calls hold
    the same id and a call that times out owns the slot it gives back. -/
theorem oneOwner_reachable {s : Net} (hs : (calls.restrict NoReset).Reachable s) :
    OneOwner s := by
  have h := owned_reachable hs
  refine ⟨fun c d i hc hd => ?_, fun c w hw _ => ?_⟩
  · have hc' := (h.owns c i).mp (slot_of_returned hc)
    have hd' := (h.owns d i).mp (slot_of_returned hd)
    exact some.inj (hc'.symm.trans hd')
  · refine (h.owns c w.slot).mp ?_
    rw [hw]
    rfl

/-! ### A reset in the wait loop -/

/-- The server's answer to the SYN of the connection from this port, sent at
    tick 0. -/
def synAck (localPort : Nat) : Segment where
  srcPort := 80
  dstPort := localPort
  seq := 5000
  ack := 2
  flags := TCP_SYN ||| TCP_ACK
  payload := []

/-- The server refuses the connection from this port. -/
def refusal (localPort : Nat) : Segment where
  srcPort := 80
  dstPort := localPort
  seq := 0
  ack := 2
  flags := TCP_RST ||| TCP_ACK
  payload := []

/-- The first two slots. -/
def slot0 : Fin TCP_MAX_CONNS := ⟨0, zero_lt_conns⟩
def slot1 : Fin TCP_MAX_CONNS := ⟨1, one_lt_conns⟩

/-- Two calls to the same server, each answered. -/
def twoCalls : List Event :=
  [.connect 0 0x0A000202 80, .connect 1 0x0A000202 80, .rx 0x0A000202 (synAck 49152),
    .rx 0x0A000202 (synAck 49153), .poll 0, .poll 1]

/-- The first call is refused while it waits; the second one takes the slot
    and is answered. -/
def refusedCall : List Event :=
  [.connect 0 0x0A000202 80, .rx 0x0A000202 (refusal 49152), .connect 1 0x0A000202 80,
    .rx 0x0A000202 (synAck 49153), .poll 0, .poll 1]

instance (s : Net) (e : Event) : Decidable (NoReset s e) :=
  match e with
  | .rx _ _ => inferInstanceAs (Decidable (_ → _))
  | .connect _ _ _ | .poll _ | .close _ | .closePoll _ | .tick => isTrue trivial

instance (s : Net) (e : Event) : Decidable (calls.allows s e) := isTrue trivial

instance (s : Net) (e : Event) : Decidable ((calls.restrict NoReset).allows s e) :=
  inferInstanceAs (Decidable (_ ∧ _))

/-- Both calls return, with different ids. -/
theorem oneOwner_reachable_twoCalls :
    ∃ s, (calls.restrict NoReset).Reachable s ∧ s.calls 0 = .connected slot0 ∧
      s.calls 1 = .connected slot1 ∧ OneOwner s := by
  have hrun : ((calls.restrict NoReset).run Net.boot twoCalls).map
      (fun s => (s.calls 0, s.calls 1)) = some (.connected slot0, .connected slot1) := by decide
  rcases map_eq_some_iff.mp hrun with ⟨s, hs, heq⟩
  have hreach := Machine.reachable_run (Machine.Reachable.start Net.boot rfl) hs
  exact ⟨s, hreach, congrArg Prod.fst heq, congrArg Prod.snd heq, oneOwner_reachable hreach⟩

/-- A reset frees the slot of the first call while it waits. Both calls
    return 0. -/
theorem oneOwner_reset :
    ∃ s, calls.Reachable s ∧ s.calls 0 = .connected slot0 ∧ s.calls 1 = .connected slot0 ∧
      ¬ OneOwner s := by
  have hrun : (calls.run Net.boot refusedCall).map (fun s => (s.calls 0, s.calls 1)) =
      some (.connected slot0, .connected slot0) := by decide
  rcases map_eq_some_iff.mp hrun with ⟨s, hs, heq⟩
  have h0 : s.calls 0 = .connected slot0 := congrArg Prod.fst heq
  have h1 : s.calls 1 = .connected slot0 := congrArg Prod.snd heq
  refine ⟨s, Machine.reachable_run (Machine.Reachable.start Net.boot rfl) hs, h0, h1, fun h => ?_⟩
  have hsame := h.distinct 0 1 slot0 (by rw [h0]; rfl) (by rw [h1]; rfl)
  exact absurd hsame (by decide)

end Owners

end SysRust.Tcp
