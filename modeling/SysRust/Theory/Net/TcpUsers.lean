import SysRust.Lib.Machine
import SysRust.Theory.Net.TcpReceive

/-!
# TCP and Its Users

Any number of callers that use the four connections as they like: each of
them may connect, send, receive and close whenever it is not waiting in a
call, with any id. Their steps are interleaved with incoming segments and
the timer in any order.

The table forgets: when a slot is given back, nothing in it tells which
connection it held, and a call that waits on the slot does not notice that
it has been taken again. To speak about connections rather than slots, every
connection gets a number when it is opened. A slot is tagged with the number
of the connection last opened in it, and what has happened to a connection
is kept under its number, in its `History`.

What one step can do is said once, in `Step`. Apart from opening a
connection a step concerns a single slot, and there it is one of the few
turns of `Turn`.

## Main definitions

* `History`: What has happened to a connection.
* `Activity`: The call a caller is in.
* `World`, `Event`, `users`: The table, its callers, and all runs.
* `Turn`: What can happen to a slot and its connection.
* `SlotStep`, `Step`: What a step can do.

## Theorems

* `rxConn_turn`: An incoming segment is a turn of its connection.
* `closeStart_slot`, `closePoll_slot`: So are the steps of `close`.
* `step_of_exec`: Every step is a `Step`.
-/

namespace SysRust.Tcp

open Function

namespace Users

/-- What has happened to a connection. `peerFirst` is the peer's FIN, or one
    that looks like it, on the established connection; `dropped` is a call
    that gave the slot back while the connection was established. -/
structure History where
  established : Bool
  reset : Bool
  finSent : Bool
  peerFirst : Bool
  dropped : Bool
deriving DecidableEq

namespace History

/-- A connection that is being opened. -/
def new : History where
  established := false
  reset := false
  finSent := false
  peerFirst := false
  dropped := false

/-- These segments were sent on the connection. -/
def sent (out : List SentSegment) (h : History) : History :=
  { h with finSent := h.finSent || out.any (fun o => hasFlag o.flags TCP_FIN) }

/-- A call gave the slot of the connection back. -/
def gaveBack (c : TcpConn) (h : History) : History :=
  { h with dropped := h.dropped || c.state == .established }

/-- A segment came in for the connection, which was `c` and is now `d`. -/
def received (seg : Segment) (c d : TcpConn) (h : History) : History :=
  { h with
    established := h.established || (c.state != .established && d.state == .established)
    reset := h.reset || hasFlag seg.flags TCP_RST
    peerFirst := h.peerFirst ||
      (c.state == .established && hasFlag seg.flags TCP_FIN && !hasFlag seg.flags TCP_RST) }

end History

/-- The call a caller is in. A `close` remembers its slot only; the number is
    that of the connection it was called for. -/
inductive Activity where
  | idle
  | connecting (w : Waiting)
  | closing (i : Fin TCP_MAX_CONNS) (g : Option Nat) (p : Closing)
deriving DecidableEq

/-- The table and the timer, the callers, how many connections have been
    opened, the connection last opened in each slot, what has happened to
    each connection, and which of them a `close` has returned for. -/
structure World where
  stack : Stack
  ticks : Nat
  calls : Nat → Activity
  opened : Nat
  gen : Fin TCP_MAX_CONNS → Option Nat
  past : Nat → History
  returned : Nat → Bool

inductive Event where
  | connect (c remoteIp remotePort : Nat)
  | poll (c : Nat)
  | send (i : Fin TCP_MAX_CONNS) (data : List UInt8)
  | recv (i : Fin TCP_MAX_CONNS) (r : Copying)
  | close (c : Nat) (i : Fin TCP_MAX_CONNS)
  | closePoll (c : Nat)
  | rx (srcIp : Nat) (seg : Segment)
  | tick

namespace World

def conns (s : World) : Conns := s.stack.conns

def setConns (s : World) (conns : Conns) : World :=
  { s with stack := { s.stack with conns := conns } }

/-- Add to the history of the connection in a slot. -/
def see (s : World) (i : Fin TCP_MAX_CONNS) (f : History → History) : World :=
  match s.gen i with
  | none => s
  | some g => { s with past := Function.update s.past g (f (s.past g)) }

def goOn (s : World) (c : Nat) (a : Activity) : World :=
  { s with calls := Function.update s.calls c a }

/-- A `close` for the connection has returned. -/
def mark (s : World) : Option Nat → World
  | none => s
  | some g => { s with returned := Function.update s.returned g true }

def onConnect (s : World) (c remoteIp remotePort : Nat) : World :=
  match connectStart remoteIp remotePort s.ticks s.stack with
  | none => s
  | some (stack, w, out) =>
    { s with
      stack := stack
      calls := Function.update s.calls c (.connecting w)
      opened := s.opened + 1
      gen := Function.update s.gen w.slot (some s.opened)
      past := Function.update s.past s.opened (History.new.sent out) }

/-- A caller after a turn of the wait loop of `connect`. -/
def polled (s : World) (c : Nat) (i : Fin TCP_MAX_CONNS) (conns : Conns) : Polled → World
  | .returns _ => (s.setConns conns).goOn c .idle
  | .waits w out => ((s.see i (History.sent out)).setConns conns).goOn c (.connecting w)
  | .timesOut => ((s.see i (History.gaveBack (s.conns i))).setConns conns).goOn c .idle

def onPoll (s : World) (c : Nat) (w : Waiting) : World :=
  s.polled c w.slot (connectPoll s.ticks w s.conns).1 (connectPoll s.ticks w s.conns).2

def onSend (s : World) (i : Fin TCP_MAX_CONNS) (data : List UInt8) : World :=
  let r := Tcp.send data (s.conns i)
  (s.see i (History.sent r.2)).setConns (Function.update s.conns i r.1)

def onRecv (s : World) (i : Fin TCP_MAX_CONNS) (r : Copying) : World :=
  s.setConns (Function.update s.conns i (recvFinish r (s.conns i)))

/-- A caller after a step of its `close`. -/
def closed (s : World) (c : Nat) (i : Fin TCP_MAX_CONNS) (g : Option Nat) : Option Closing → World
  | some p => s.goOn c (.closing i g p)
  | none => (s.goOn c .idle).mark g

def onClose (s : World) (c : Nat) (i : Fin TCP_MAX_CONNS) : World :=
  ((s.see i (History.sent (closeStart s.ticks i s.conns).2.2)).setConns
    (closeStart s.ticks i s.conns).1).closed c i (s.gen i) (closeStart s.ticks i s.conns).2.1

/-- What a turn of a wait loop of `close` adds to the history of the
    connection in the slot. -/
def closeSeen (c : TcpConn) : Option Closing → History → History
  | some _ => id
  | none => History.gaveBack c

def onClosePoll (s : World) (c : Nat) (i : Fin TCP_MAX_CONNS) (g : Option Nat) (p : Closing) :
    World :=
  ((s.see i (closeSeen (s.conns i) (Tcp.closePoll s.ticks i s.conns p).2)).setConns
    (Tcp.closePoll s.ticks i s.conns p).1).closed c i g (Tcp.closePoll s.ticks i s.conns p).2

def onRx (s : World) (srcIp : Nat) (seg : Segment) : World :=
  match tcpFindConn s.conns srcIp seg.srcPort seg.dstPort with
  | none => s.setConns (Tcp.rx srcIp seg s.conns).1
  | some i =>
    (s.see i (fun h => (h.received seg (s.conns i) ((Tcp.rx srcIp seg s.conns).1 i)).sent
      (Tcp.rx srcIp seg s.conns).2)).setConns (Tcp.rx srcIp seg s.conns).1

/-- The state after `init`, before any call. -/
def boot : World where
  stack := Stack.init
  ticks := 0
  calls := fun _ => .idle
  opened := 0
  gen := fun _ => none
  past := fun _ => History.new
  returned := fun _ => false

def exec (s : World) : Event → Option World
  | .connect c remoteIp remotePort =>
    match s.calls c with
    | .idle => some (s.onConnect c remoteIp remotePort)
    | _ => none
  | .poll c =>
    match s.calls c with
    | .connecting w => some (s.onPoll c w)
    | _ => none
  | .send i data => some (s.onSend i data)
  | .recv i r => some (s.onRecv i r)
  | .close c i =>
    match s.calls c with
    | .idle => some (s.onClose c i)
    | _ => none
  | .closePoll c =>
    match s.calls c with
    | .closing i g p => some (s.onClosePoll c i g p)
    | _ => none
  | .rx srcIp seg => some (s.onRx srcIp seg)
  | .tick => some { s with ticks := u32 (s.ticks + 1) }

end World

/-- Every interleaving of the calls, incoming segments and the timer. -/
def users : Machine World Event where
  start := fun s => s = World.boot
  allows := fun _ _ => True
  exec := World.exec

instance (s : World) (e : Event) : Decidable (users.allows s e) := isTrue trivial

/-! ### Turns of a connection -/

/-- What can happen to a slot and the connection in it. -/
inductive Turn (c : TcpConn) (h : History) : TcpConn → History → Prop
  | same {d : TcpConn} (huse : d.inUse = c.inUse) (hstate : d.state = c.state) : Turn c h d h
  | opens {d : TcpConn} (huse : d.inUse = c.inUse) (hold : c.state = .synSent)
      (hnew : d.state = .established) : Turn c h d { h with established := true }
  | peerFin {d : TcpConn} (huse : d.inUse = c.inUse) (hold : c.state = .established)
      (hnew : d.state = .timeWait) : Turn c h d { h with peerFirst := true }
  | fin {d : TcpConn} (huse : d.inUse = c.inUse)
      (hold : c.state = .established ∨ c.state = .synSent) (hnew : d.state = .finWait1) :
      Turn c h d { h with finSent := true }
  | answered {d : TcpConn} (huse : d.inUse = c.inUse)
      (hold : c.state = .finWait1 ∨ c.state = .finWait2)
      (hnew : d.state = .finWait2 ∨ d.state = .timeWait) : Turn c h d h
  | reset {d : TcpConn} (huse : c.inUse = true) (hfree : d.inUse = false)
      (hnew : d.state = .closed) : Turn c h d { h with reset := true }
  | released {d : TcpConn} (hfree : d.inUse = false) (hnew : d.state = .closed) :
      Turn c h d (h.gaveBack c)

variable {c d : TcpConn} {k : Nat} {a : Activity} {t : World}

/-- A connection that has begun to close stays so. -/
theorem Turn.young {h h' : History} (ht : Turn c h d h') (hd : d.inUse = true)
    (hyoung : d.state = .synSent ∨ d.state = .established) :
    c.inUse = true ∧ (c.state = .synSent ∨ c.state = .established) := by
  cases ht with
  | same huse hstate => exact ⟨huse ▸ hd, hstate ▸ hyoung⟩
  | opens huse hold _ => exact ⟨huse ▸ hd, Or.inl hold⟩
  | peerFin _ _ hnew | fin _ _ hnew =>
    rw [hnew] at hyoung
    exact absurd hyoung (by decide)
  | answered _ _ hnew =>
    rcases hnew with hnew | hnew <;> rw [hnew] at hyoung <;> exact absurd hyoung (by decide)
  | reset _ hfree _ | released hfree _ =>
    rw [hfree] at hd
    exact absurd hd Bool.false_ne_true

/-- A turn takes no slot into use. -/
theorem Turn.inUse {h h' : History} (ht : Turn c h d h') (hd : d.inUse = true) :
    c.inUse = true := by
  cases ht with
  | same huse _ | opens huse _ _ | peerFin huse _ _ | fin huse _ _ | answered huse _ _ =>
    exact huse ▸ hd
  | reset huse _ _ => exact huse
  | released hfree _ =>
    rw [hfree] at hd
    exact absurd hd Bool.false_ne_true

/-! ### Segments without a FIN -/

theorem sent_quiet {out : List SentSegment} (h : ∀ o ∈ out, hasFlag o.flags TCP_FIN = false)
    (hist : History) : hist.sent out = hist := by
  have hany : out.any (fun o => hasFlag o.flags TCP_FIN) = false := by
    rw [List.any_eq_false]
    intro o ho
    rw [h o ho]
    exact Bool.false_ne_true
  simp only [History.sent, hany, Bool.or_false]

theorem tcpSendSegment_quiet {f : BitVec 8} (hf : hasFlag f TCP_FIN = false) (c : TcpConn)
    (data : List UInt8) : ∀ o ∈ tcpSendSegment c f data, hasFlag o.flags TCP_FIN = false := by
  intro o ho
  unfold tcpSendSegment at ho
  by_cases hlen : u16 (20 + data.length) > 1480
  · rw [if_pos hlen] at ho
    exact absurd ho List.not_mem_nil
  · rw [if_neg hlen] at ho
    rw [List.mem_singleton.mp ho]
    exact hf

theorem nil_quiet : ∀ o ∈ ([] : List SentSegment), hasFlag o.flags TCP_FIN = false :=
  List.forall_mem_nil _

theorem syn_quiet (c : TcpConn) :
    ∀ o ∈ tcpSendSegment c TCP_SYN [], hasFlag o.flags TCP_FIN = false :=
  tcpSendSegment_quiet (by decide) c []

/-! ### Incoming segments -/

/-- Nothing that is sent in answer to a segment has a FIN. -/
theorem rxConn_quiet (seg : Segment) (c : TcpConn) :
    ∀ o ∈ (rxConn seg c).2, hasFlag o.flags TCP_FIN = false := by
  intro o ho
  rcases rxConn_sent ho with ⟨e, _, rfl⟩
  exact (show hasFlag TCP_ACK TCP_FIN = false by decide)

/-- A segment that is not a reset is remembered by what it did to the state. -/
theorem received_eq {seg : Segment} (hr : hasFlag seg.flags TCP_RST = false) (h : History) :
    h.received seg c d = { h with
      established := h.established || decide (c.state ≠ .established ∧ d.state = .established)
      peerFirst := h.peerFirst ||
        decide (c.state = .established ∧ hasFlag seg.flags TCP_FIN = true) } := by
  simp only [History.received, hr, Bool.or_false, Bool.not_false, Bool.and_true, bne,
    Bool.decide_and, Bool.decide_eq_true, decide_not, Bool.beq_eq_decide_eq]

/-- An incoming segment is a turn of the connection it is for. -/
theorem rxConn_turn (huse : c.inUse = true) (seg : Segment) (h : History) :
    Turn c h (rxConn seg c).1 (h.received seg c (rxConn seg c).1) := by
  rcases rxConn_cases seg c with ⟨hr, h0⟩ | ⟨hr, hs⟩
  · rw [h0]
    have hh : h.received seg c { c with
        state := .closed, inUse := false, connected := false, finReceived := true } =
        { h with reset := true } := by
      simp only [History.received, hr, Bool.or_true, Bool.not_true, Bool.and_false, Bool.or_false,
        beq_eq_false_iff_ne.mpr (show TcpState.closed ≠ .established by decide)]
    simp only [hh]
    exact Turn.reset huse rfl rfl
  have hrec := received_eq (c := c) (d := (rxConn seg c).1) hr h
  rw [hrec]
  cases hs.state with
  | same hst hf =>
    have h1 : ¬(c.state ≠ .established ∧ (rxConn seg c).1.state = .established) :=
      fun h' => h'.1 (hst ▸ h'.2)
    have h2 : ¬(c.state = .established ∧ hasFlag seg.flags TCP_FIN = true) :=
      fun h' => absurd (hf h'.1) (by rw [h'.2]; decide)
    rw [decide_eq_false h1, decide_eq_false h2, Bool.or_false, Bool.or_false]
    exact Turn.same hs.inUse hst
  | opens hc hst =>
    rw [hc, hst, decide_eq_true (by decide), decide_eq_false (fun h' => absurd h'.1 (by decide)),
      Bool.or_true, Bool.or_false]
    exact Turn.opens hs.inUse hc hst
  | peerFin hc hf hst =>
    rw [hc, hst, decide_eq_false (by decide), decide_eq_true ⟨rfl, hf⟩, Bool.or_false, Bool.or_true]
    exact Turn.peerFin hs.inUse hc hst
  | answered hc hst =>
    have h1 : (rxConn seg c).1.state ≠ .established := by
      rcases hst with h | h <;> rw [h] <;> decide
    have h2 : c.state ≠ .established := by
      rcases hc with h | h <;> rw [h] <;> decide
    rw [decide_eq_false (fun h' => h1 h'.2), decide_eq_false (fun h' => h2 h'.1), Bool.or_false,
      Bool.or_false]
    exact Turn.answered hs.inUse hc hst

/-! ### Steps -/

namespace World

variable (s : World) (i : Fin TCP_MAX_CONNS) (f : History → History)

/-- Seeing something changes the histories only. -/
theorem see_eq : s.see i f = { s with past := (s.see i f).past } := by unfold see; split <;> rfl

@[simp] theorem see_returned : (s.see i f).returned = s.returned := by rw [see_eq]

theorem mark_eq (g : Option Nat) : s.mark g = { s with returned := (s.mark g).returned } := by
  cases g <;> rfl

/-- Seeing nothing new changes nothing. -/
theorem see_id : (s.see i id).past = s.past := by
  unfold see
  cases s.gen i with
  | none => rfl
  | some g => exact update_eq_self g s.past

end World

/-- A `close` was called for the connection. -/
def Waits (s : World) (g : Nat) : Prop :=
  s.returned g = true ∨ ∃ c i p, s.calls c = .closing i (some g) p

variable {g m : Option Nat} {s : World} {f : History → History} {i : Fin TCP_MAX_CONNS}

theorem waits_mark (h : Waits (s.mark g) k) : Waits s k ∨ g = some k := by
  cases g with
  | none => exact Or.inl h
  | some g =>
    rcases h with h | h
    · by_cases hk : k = g
      · exact Or.inr (by rw [hk])
      · simp only [World.mark, update_of_ne hk] at h
        exact Or.inl (Or.inl h)
    · exact Or.inl (Or.inr h)

theorem waits_goOn {c : Nat} (h : Waits (s.goOn c a) k) :
    Waits s k ∨ ∃ i p, a = .closing i (some k) p := by
  rcases h with h | ⟨d, i, p, h⟩
  · exact Or.inl (Or.inl h)
  · by_cases hd : d = c
    · simp only [World.goOn, hd, update_self] at h
      exact Or.inr ⟨i, p, h⟩
    · simp only [World.goOn, update_of_ne hd] at h
      exact Or.inl (Or.inr ⟨d, i, p, h⟩)

/-- The connection is being opened, or open. -/
def Young (c : TcpConn) : Prop :=
  c.inUse = true ∧ (c.state = .synSent ∨ c.state = .established)

/-- A step that concerns one slot, in which `c` is the connection afterwards:
    it is a turn of the connection, and a `close` that is called leaves a
    connection that is not young any more. -/
structure SlotStep (s t : World) (i : Fin TCP_MAX_CONNS) (c : TcpConn)
    (f : History → History) : Prop where
  conns : t.conns = Function.update s.conns i c
  port : t.stack.nextLocalPort = s.stack.nextLocalPort
  gen : t.gen = s.gen
  opened : t.opened = s.opened
  past : t.past = (s.see i f).past
  ends : SameEnds c (s.conns i)
  turn : ∀ h, Turn (s.conns i) h c (f h)
  closes : ∀ g, Waits t g → Waits s g ∨ (s.gen i = some g ∧ ¬ Young c)

/-- The event opens no connection. -/
def OpensNone (s : World) (e : Event) : Prop :=
  ∀ c remoteIp remotePort, e = .connect c remoteIp remotePort → tcpAllocConn s.conns = none

/-- What an event can do: concern one slot, open a connection in a free slot,
    or leave the table alone. -/
inductive Step (s : World) (e : Event) (t : World) : Prop
  | slot (hnone : OpensNone s e) (i : Fin TCP_MAX_CONNS) (c : TcpConn) (f : History → History)
      (hslot : SlotStep s t i c f)
  | opens (c remoteIp remotePort : Nat) (i : Fin TCP_MAX_CONNS)
      (hevent : e = .connect c remoteIp remotePort) (halloc : tcpAllocConn s.conns = some i)
      (hconns : t.conns = Function.update s.conns i
        (synConn remoteIp remotePort s.stack.nextLocalPort s.ticks))
      (hport : t.stack.nextLocalPort = bumpPort s.stack.nextLocalPort)
      (hgen : t.gen = Function.update s.gen i (some s.opened))
      (hopened : t.opened = s.opened + 1)
      (hpast : t.past = Function.update s.past s.opened History.new)
      (hcloses : ∀ g, Waits t g → Waits s g)
  | idle (hnone : OpensNone s e) (hstack : t.stack = s.stack) (hgen : t.gen = s.gen)
      (hopened : t.opened = s.opened) (hpast : t.past = s.past)
      (hcloses : ∀ g, Waits t g → Waits s g)

theorem tcpAllocConn_free {conns : Conns} (h : tcpAllocConn conns = some i) :
    (conns i).inUse = false := by
  have hfree := (Fin.find?_eq_some_iff.mp h).1
  simpa only [Bool.not_eq_true'] using hfree

theorem step_connect {c remoteIp remotePort : Nat} :
    Step s (.connect c remoteIp remotePort) (s.onConnect c remoteIp remotePort) := by
  unfold World.onConnect connectStart
  cases halloc : tcpAllocConn s.stack.conns with
  | none => exact Step.idle (fun _ _ _ _ => halloc) rfl rfl rfl rfl (fun _ h => h)
  | some i =>
    refine Step.opens c remoteIp remotePort i rfl halloc rfl rfl rfl rfl ?_ (fun g hg => ?_)
    · simp only [sent_quiet (syn_quiet _)]
    · -- The caller is connecting, so it is in no `close`.
      rcases waits_goOn (s := s) hg with h | ⟨_, _, h⟩
      · exact h
      · cases h

/-- A turn of the connection in a slot. -/
theorem slotStep_turn {conns : Conns} (hconns : conns = Function.update s.conns i c)
    (hends : SameEnds c (s.conns i)) (hturn : ∀ h, Turn (s.conns i) h c (f h)) :
    SlotStep s ((s.see i f).setConns conns) i c f := by
  rw [World.see_eq]
  exact ⟨hconns, rfl, rfl, rfl, rfl, hends, hturn, fun _ hg => Or.inl hg⟩

/-- A turn that leaves the connection as it is. -/
theorem slotStep_same (hf : ∀ h, f h = h) :
    SlotStep s ((s.see i f).setConns s.conns) i (s.conns i) f := by
  refine slotStep_turn (update_eq_self i s.conns).symm (sameEnds_refl _) (fun h => ?_)
  rw [hf h]
  exact Turn.same rfl rfl

/-- Giving the slot back. -/
theorem slotStep_release :
    SlotStep s ((s.see i (History.gaveBack (s.conns i))).setConns
      (Function.update s.conns i (release (s.conns i)))) i (release (s.conns i))
      (History.gaveBack (s.conns i)) :=
  slotStep_turn rfl ⟨rfl, rfl, rfl⟩ (fun _ => Turn.released rfl rfl)

/-- The caller goes on, in no `close`, in one that was called before, or in
    one that is called for the connection in the slot. -/
theorem SlotStep.goOn (h : SlotStep s t i c f)
    (ha : ∀ j g p, a = .closing j (some g) p → Waits s g ∨ (s.gen i = some g ∧ ¬ Young c)) :
    SlotStep s (t.goOn k a) i c f := by
  refine ⟨h.conns, h.port, h.gen, h.opened, h.past, h.ends, h.turn, fun g hg => ?_⟩
  rcases waits_goOn hg with hw | ⟨j, p, he⟩
  · exact h.closes g hw
  · exact ha j g p he

/-- A `close` returns. -/
theorem SlotStep.mark (h : SlotStep s t i c f)
    (hm : ∀ g, m = some g → Waits s g ∨ (s.gen i = some g ∧ ¬ Young c)) :
    SlotStep s (t.mark m) i c f := by
  rw [World.mark_eq]
  refine ⟨h.conns, h.port, h.gen, h.opened, h.past, h.ends, h.turn, fun g hg => ?_⟩
  rw [← World.mark_eq] at hg
  rcases waits_mark hg with hw | he
  · exact h.closes g hw
  · exact hm g he

theorem connecting_closes (ha : ∀ j g p, a ≠ .closing j g p) :
    ∀ j g p, a = .closing j (some g) p → Waits s g ∨ (s.gen i = some g ∧ ¬ Young c) :=
  fun j g p he => absurd he (ha j (some g) p)

/-- What a turn of the wait loop of `connect` comes to. -/
theorem connectPoll_cases (ticks : Nat) (w : Waiting) (conns : Conns) :
    connectPoll ticks w conns = (conns, .returns w.slot) ∨
      (∃ w' out, connectPoll ticks w conns = (conns, .waits w' out) ∧ w'.slot = w.slot ∧
        ∀ o ∈ out, hasFlag o.flags TCP_FIN = false) ∨
      connectPoll ticks w conns =
        (Function.update conns w.slot (release (conns w.slot)), .timesOut) := by
  unfold connectPoll
  by_cases hexp : w.expired ticks = true
  · rw [if_pos hexp]
    by_cases hmore : w.attempt + 1 < 3
    · rw [if_pos hmore]
      exact Or.inr (Or.inl ⟨_, _, rfl, rfl, syn_quiet _⟩)
    · rw [if_neg hmore]
      exact Or.inr (Or.inr rfl)
  · rw [if_neg hexp]
    by_cases hconn : (conns w.slot).connected = true
    · rw [if_pos hconn]
      exact Or.inl rfl
    · rw [if_neg hconn]
      exact Or.inr (Or.inl ⟨_, _, rfl, rfl, nil_quiet⟩)

theorem step_poll {c : Nat} {w : Waiting} : Step s (.poll c) (s.onPoll c w) := by
  have hnone : OpensNone s (.poll c) := fun _ _ _ h => nomatch h
  rw [World.onPoll]
  rcases connectPoll_cases s.ticks w s.conns with hr | ⟨w', out, hr, _, hquiet⟩ | hr
  · rw [hr]
    refine Step.idle hnone rfl rfl rfl rfl (fun g hg => ?_)
    rcases waits_goOn hg with hw | ⟨_, _, he⟩
    · exact hw
    · exact Activity.noConfusion he
  · rw [hr]
    exact Step.slot hnone w.slot _ _ ((slotStep_same (sent_quiet hquiet)).goOn
      (connecting_closes (fun _ _ _ => Activity.noConfusion)))
  · rw [hr]
    exact Step.slot hnone w.slot _ _ (slotStep_release.goOn
      (connecting_closes (fun _ _ _ => Activity.noConfusion)))

theorem send_turn (data : List UInt8) (c : TcpConn) (h : History) :
    SameEnds (Tcp.send data c).1 c ∧
      Turn c h (Tcp.send data c).1 (h.sent (Tcp.send data c).2) := by
  unfold Tcp.send
  by_cases hno : c.inUse = false ∨ c.state ≠ .established
  · rw [if_pos hno, sent_quiet nil_quiet]
    exact ⟨sameEnds_refl c, Turn.same rfl rfl⟩
  · rw [if_neg hno, sent_quiet (tcpSendSegment_quiet (by decide) c data)]
    exact ⟨⟨rfl, rfl, rfl⟩, Turn.same rfl rfl⟩

theorem step_send {data : List UInt8} : Step s (.send i data) (s.onSend i data) :=
  Step.slot (fun _ _ _ h => nomatch h) i _ _
    (slotStep_turn rfl (send_turn data _ History.new).1 (fun h => (send_turn data _ h).2))

/-- Taking bytes out of the buffer tells nothing about the connection. -/
theorem step_recv {r : Copying} : Step s (.recv i r) (s.onRecv i r) := by
  refine Step.slot (fun _ _ _ h => nomatch h) i (recvFinish r (s.conns i)) id
    ⟨rfl, rfl, rfl, rfl, (s.see_id i).symm, ⟨rfl, rfl, rfl⟩, fun h => Turn.same rfl rfl, ?_⟩
  exact fun g hg => Or.inl hg

/-- What the first step of a `close` comes to. -/
inductive Closes (ticks : Nat) (i : Fin TCP_MAX_CONNS) (conns : Conns) :
    Conns × Option Closing × List SentSegment → Prop
  | free (hfree : (conns i).inUse = false) : Closes ticks i conns (conns, none, [])
  | fin (huse : (conns i).inUse = true)
      (hopen : (conns i).state = .established ∨ (conns i).state = .synSent) :
      Closes ticks i conns (Function.update conns i
        { conns i with sendSeq := u32 ((conns i).sendSeq + 1), state := .finWait1 },
        some (.finWait ticks), tcpSendSegment (conns i) (TCP_FIN ||| TCP_ACK) [])
  | lingers (hwait : (conns i).state = .timeWait) :
      Closes ticks i conns (conns, some (.lingering ticks), [])
  | gives (huse : (conns i).inUse = true) (hnew : (conns i).state ≠ .established)
      (hsyn : (conns i).state ≠ .synSent) :
      Closes ticks i conns (Function.update conns i (release (conns i)), none, [])

theorem closeStart_cases (ticks : Nat) (i : Fin TCP_MAX_CONNS) (conns : Conns) :
    Closes ticks i conns (closeStart ticks i conns) := by
  unfold closeStart
  by_cases hfree : (conns i).inUse = false
  · rw [if_pos hfree]
    exact Closes.free hfree
  rw [if_neg hfree]
  have huse : (conns i).inUse = true := by simpa only [Bool.not_eq_false] using hfree
  by_cases hopen : (conns i).state = .established ∨ (conns i).state = .synSent
  · rw [if_pos hopen]
    exact Closes.fin huse hopen
  rw [if_neg hopen, closeEnd]
  by_cases hwait : (conns i).state = .timeWait
  · rw [if_pos hwait]
    exact Closes.lingers hwait
  · rw [if_neg hwait]
    exact Closes.gives huse (fun h => hopen (Or.inl h)) (fun h => hopen (Or.inr h))

/-- A turn of the wait loops of `close` waits on or gives the slot back. -/
theorem closePoll_cases (ticks : Nat) (i : Fin TCP_MAX_CONNS) (conns : Conns) (p : Closing) :
    (∃ p', closePoll ticks i conns p = (conns, some p')) ∨
      closePoll ticks i conns p = (Function.update conns i (release (conns i)), none) := by
  cases p with
  | finWait start =>
    rw [closePoll]
    by_cases hwait : (conns i).state ≠ .closed ∧ (conns i).state ≠ .timeWait ∧
        wrappingSub32 ticks start < 200
    · rw [if_pos hwait]
      exact Or.inl ⟨_, rfl⟩
    rw [if_neg hwait, closeEnd]
    by_cases htime : (conns i).state = .timeWait
    · rw [if_pos htime]
      exact Or.inl ⟨_, rfl⟩
    · rw [if_neg htime]
      exact Or.inr rfl
  | lingering start =>
    rw [closePoll]
    by_cases hwait : wrappingSub32 ticks start < 50
    · rw [if_pos hwait]
      exact Or.inl ⟨_, rfl⟩
    · rw [if_neg hwait]
      exact Or.inr rfl

theorem gaveBack_of_ne (hc : c.state ≠ .established) (h : History) : h.gaveBack c = h := by
  have hc' : (c.state == .established) = false := beq_eq_false_iff_ne.mpr hc
  simp only [History.gaveBack, hc', Bool.or_false]

/-- The FIN of a `close` is always sent: it has no data to be too long. -/
theorem sent_fin (c : TcpConn) (h : History) :
    h.sent (tcpSendSegment c (TCP_FIN ||| TCP_ACK) []) = { h with finSent := true } := by
  have hany : (tcpSendSegment c (TCP_FIN ||| TCP_ACK) []).any
      (fun o => hasFlag o.flags TCP_FIN) = true := by
    have hflag : hasFlag (TCP_FIN ||| TCP_ACK) TCP_FIN = true := by decide
    rw [tcpSendSegment, if_neg (by decide), List.any_cons, hflag, Bool.true_or]
  simp only [History.sent, hany, Bool.or_true]

/-- A `close` goes on or returns. -/
theorem SlotStep.closed (h : SlotStep s t i c f) {j : Fin TCP_MAX_CONNS}
    (hm : ∀ g, m = some g → Waits s g ∨ (s.gen i = some g ∧ ¬ Young c)) (p : Option Closing) :
    SlotStep s (t.closed k j m p) i c f := by
  cases p with
  | none =>
    exact SlotStep.mark (h.goOn (connecting_closes (fun _ _ _ => Activity.noConfusion))) hm
  | some p =>
    refine h.goOn (fun j g p he => ?_)
    rw [Activity.closing.injEq] at he
    exact hm g he.2.1

theorem step_close {c : Nat} : Step s (.close c i) (s.onClose c i) := by
  have hnone : OpensNone s (.close c i) := fun _ _ _ h => nomatch h
  have hcases := closeStart_cases s.ticks i s.conns
  rw [World.onClose]
  generalize closeStart s.ticks i s.conns = r at hcases
  cases hcases with
  | free hfree =>
    refine Step.slot hnone i _ _ ((slotStep_same (sent_quiet nil_quiet)).closed
      (fun g hg => Or.inr ⟨hg, fun hy => ?_⟩) _)
    rw [Young, hfree] at hy
    exact Bool.false_ne_true hy.1
  | fin huse hopen =>
    have hturn : ∀ h, Turn (s.conns i) h
        { s.conns i with sendSeq := u32 ((s.conns i).sendSeq + 1), state := .finWait1 }
        (h.sent (tcpSendSegment (s.conns i) (TCP_FIN ||| TCP_ACK) [])) := by
      intro h
      rw [sent_fin]
      exact Turn.fin rfl hopen rfl
    refine Step.slot hnone i _ _ (SlotStep.closed (slotStep_turn rfl ?_ hturn)
      (fun g hg => Or.inr ⟨hg, fun hy => ?_⟩) _)
    · exact ⟨rfl, rfl, rfl⟩
    · rcases hy.2 with he | he <;> exact TcpState.noConfusion he
  | lingers hwait =>
    refine Step.slot hnone i _ _ ((slotStep_same (sent_quiet nil_quiet)).closed
      (fun g hg => Or.inr ⟨hg, fun hy => ?_⟩) _)
    rw [Young, hwait] at hy
    rcases hy.2 with he | he <;> exact TcpState.noConfusion he
  | gives huse hest hsyn =>
    have hturn : ∀ h, Turn (s.conns i) h (release (s.conns i)) (h.sent []) := by
      intro h
      have hback := Turn.released (c := s.conns i) (h := h) (d := release (s.conns i)) rfl rfl
      rw [gaveBack_of_ne hest] at hback
      rw [sent_quiet nil_quiet]
      exact hback
    refine Step.slot hnone i _ _ (SlotStep.closed (slotStep_turn rfl ?_ hturn)
      (fun g hg => Or.inr ⟨hg, fun hy => Bool.false_ne_true hy.1⟩) _)
    exact ⟨rfl, rfl, rfl⟩

theorem step_closePoll {c : Nat} {p : Closing} (hc : s.calls c = .closing i g p) :
    Step s (.closePoll c) (s.onClosePoll c i g p) := by
  have hnone : OpensNone s (.closePoll c) := fun _ _ _ h => nomatch h
  have hwaits : ∀ k, g = some k → Waits s k := fun k hk => Or.inr ⟨c, i, p, by rw [hc, hk]⟩
  rw [World.onClosePoll]
  rcases closePoll_cases s.ticks i s.conns p with ⟨p', hr⟩ | hr
  · rw [hr]
    exact Step.slot hnone i _ _ (SlotStep.closed (slotStep_same (fun _ => rfl))
      (fun k hk => Or.inl (hwaits k hk)) _)
  · rw [hr]
    exact Step.slot hnone i _ _ (slotStep_release.closed (fun k hk => Or.inl (hwaits k hk)) _)

theorem step_rx {srcIp : Nat} {seg : Segment} : Step s (.rx srcIp seg) (s.onRx srcIp seg) := by
  have hnone : OpensNone s (.rx srcIp seg) := fun _ _ _ h => nomatch h
  unfold World.onRx Tcp.rx
  cases hfind : tcpFindConn s.conns srcIp seg.srcPort seg.dstPort with
  | none => exact Step.idle hnone rfl rfl rfl rfl (fun _ h => h)
  | some i =>
    have huse := (matches_iff.mp (tcpFindConn_eq_some.mp hfind).1).1
    refine Step.slot hnone i (rxConn seg (s.conns i)).1 _
      (slotStep_turn rfl (rxConn_confined seg _).ends (fun h => ?_))
    simp only [update_self]
    rw [sent_quiet (rxConn_quiet seg _)]
    exact rxConn_turn huse seg h

/-- The steps there are, with what the caller is doing. -/
inductive Ran (s : World) : Event → World → Prop
  | connect {c : Nat} (ip port : Nat) : s.calls c = .idle →
      Ran s (.connect c ip port) (s.onConnect c ip port)
  | poll {c : Nat} {w : Waiting} : s.calls c = .connecting w → Ran s (.poll c) (s.onPoll c w)
  | send (i : Fin TCP_MAX_CONNS) (data : List UInt8) : Ran s (.send i data) (s.onSend i data)
  | recv (i : Fin TCP_MAX_CONNS) (r : Copying) : Ran s (.recv i r) (s.onRecv i r)
  | close {c : Nat} (i : Fin TCP_MAX_CONNS) : s.calls c = .idle → Ran s (.close c i) (s.onClose c i)
  | closePoll {c : Nat} {i : Fin TCP_MAX_CONNS} {g : Option Nat} {p : Closing} :
      s.calls c = .closing i g p → Ran s (.closePoll c) (s.onClosePoll c i g p)
  | rx (srcIp : Nat) (seg : Segment) : Ran s (.rx srcIp seg) (s.onRx srcIp seg)
  | tick : Ran s .tick { s with ticks := u32 (s.ticks + 1) }

theorem ran_of_exec {e : Event} (he : s.exec e = some t) : Ran s e t := by
  cases e with
  | connect c | poll c | close c | closePoll c =>
    cases hc : s.calls c <;> simp only [World.exec, hc, reduceCtorEq, Option.some.injEq] at he
    rw [← he]
    constructor
    exact hc
  | send | recv | rx | tick =>
    rw [← Option.some.inj he]
    constructor

/-- Every step is one of a slot, opens a connection, or leaves the table
    alone. -/
theorem step_of_exec {e : Event} (he : s.exec e = some t) : Step s e t := by
  cases ran_of_exec he with
  | connect ip port hc => exact step_connect
  | poll hc => exact step_poll
  | send i data => exact step_send
  | recv i r => exact step_recv
  | close i hc => exact step_close
  | closePoll hc => exact step_closePoll hc
  | rx srcIp seg => exact step_rx
  | tick => exact Step.idle (fun _ _ _ h => nomatch h) rfl rfl rfl rfl (fun _ h => h)

end Users

end SysRust.Tcp
