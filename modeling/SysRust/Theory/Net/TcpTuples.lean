import SysRust.Theory.Net.TcpUsers

/-!
# The Four-Tuples of TCP Connections

`tcp_find_conn` finds a connection by its remote address, remote port and
local port, and takes the first that fits. It finds the right one as long as
no two connections in use have the same three.

The local port comes from a counter that `connect` increments and never
compares with anything. It counts through the 16384 ephemeral ports and
begins again, so the local port of a connection is its number modulo 16384.
Two connections to the same remote endpoint therefore clash exactly if the
later one is opened a multiple of 16384 connections after the other and the
other is still in use.

## Main definitions

* `Distinct`: No two connections in use have the same endpoints.
* `OwnTuple`: Every connection in use is the one its segments find.
* `EPHEMERAL_PORTS`: How many local ports there are.
* `PortFree`: No connection in use to the same remote is a multiple of the
  ephemeral ports older.
* `Numbered`: Local ports are numbers of connections.
* `Held`: One connection is open while others come and go.

## Theorems

* `ownTuple_iff`: Connections are found exactly if they are distinct.
* `numbered_reachable`: Local ports are the numbers modulo 16384.
* `ownTuple_step`: What decides whether a step keeps the property.
* `ownTuple_iff_portFree`: What decides it for a run.
* `held_rounds`: A connection outlasts any number of others.
* `ownTuple_wrapped`: After 16384 connections a tuple is used twice.
-/

namespace SysRust.Tcp

open Function

namespace Users

/-- No two connections in use have the same endpoints. -/
def Distinct (conns : Conns) : Prop :=
  ∀ i j, (conns i).inUse = true → (conns j).inUse = true → SameEnds (conns i) (conns j) → i = j

/-- No two connections in use have the same tuple, and segments for a
    connection in use find it. -/
structure OwnTuple (s : World) : Prop where
  distinct : Distinct s.conns
  found : ∀ i, (s.conns i).inUse = true →
    tcpFindConn s.conns (s.conns i).remoteIp (s.conns i).remotePort (s.conns i).localPort = some i

variable {c d : TcpConn} {i : Fin TCP_MAX_CONNS} {n : Nat} {e : Event} {s t : World}

theorem sameEnds_symm (h : SameEnds c d) : SameEnds d c :=
  ⟨h.1.symm, h.2.1.symm, h.2.2.symm⟩

theorem sameEnds_trans {e : TcpConn} (h : SameEnds c d) (h' : SameEnds d e) : SameEnds c e :=
  ⟨h.1.trans h'.1, h.2.1.trans h'.2.1, h.2.2.trans h'.2.2⟩

/-- Connections that are distinct are found. -/
theorem ownTuple_iff (s : World) : OwnTuple s ↔ Distinct s.conns := by
  refine ⟨fun h => h.distinct, fun h => ⟨h, fun i hi => ?_⟩⟩
  refine tcpFindConn_eq_some.mpr ⟨matches_iff.mpr ⟨hi, rfl, rfl, rfl⟩, fun j hj => ?_⟩
  rw [← Bool.not_eq_true, matches_iff]
  rintro ⟨huse, hends⟩
  exact absurd (h j i huse hi hends) (Fin.ne_of_lt hj)

/-- Replacing a connection by one with the same endpoints keeps connections
    distinct, if it takes no slot into use. -/
theorem distinct_update {conns : Conns} (h : Distinct conns) (hends : SameEnds c (conns i))
    (huse : c.inUse = true → (conns i).inUse = true) : Distinct (Function.update conns i c) := by
  have hold := (forall_update_iff conns (fun k d => d.inUse = true → (conns k).inUse = true)).mpr
    ⟨huse, fun _ _ hk => hk⟩
  have hsame := (forall_update_iff conns (fun k d => SameEnds d (conns k))).mpr
    ⟨hends, fun _ _ => sameEnds_refl _⟩
  intro j k hj hk hjk
  exact h j k (hold j hj) (hold k hk)
    (sameEnds_trans (sameEnds_symm (hsame j)) (sameEnds_trans hjk (hsame k)))

/-- A connection in a slot that was free is distinct from the others exactly
    if none of them has its endpoints. -/
theorem distinct_opened {conns : Conns} (h : Distinct conns) (hfree : (conns i).inUse = false)
    (huse : c.inUse = true) :
    Distinct (Function.update conns i c) ↔
      ∀ j, (conns j).inUse = true → ¬ SameEnds (conns j) c := by
  have hne : ∀ j, (conns j).inUse = true → j ≠ i := by
    intro j hj hji
    rw [hji, hfree] at hj
    exact Bool.false_ne_true hj
  constructor
  · intro hd j hj hends
    have hji := hne j hj
    refine hji (hd j i ?_ ?_ ?_)
    · rwa [update_of_ne hji]
    · rwa [update_self]
    · rwa [update_of_ne hji, update_self]
  · intro hno j k hj hk hends
    by_cases hji : j = i
    · by_cases hki : k = i
      · rw [hji, hki]
      · rw [hji, update_self, update_of_ne hki] at hends
        rw [update_of_ne hki] at hk
        exact absurd (sameEnds_symm hends) (hno k hk)
    · rw [update_of_ne hji] at hj hends
      by_cases hki : k = i
      · rw [hki, update_self] at hends
        exact absurd hends (hno j hj)
      · rw [update_of_ne hki] at hk hends
        exact h j k hj hk hends

/-! ### Numbers and ports -/

/-- The ports from 49152 to 65535. -/
def EPHEMERAL_PORTS : Nat := 16384

/-- The local port of the connection with this number. -/
def portOf (g : Nat) : Nat := 49152 + g % EPHEMERAL_PORTS

theorem bumpPort_portOf (g : Nat) : bumpPort (portOf g) = portOf (g + 1) := by
  rw [bumpPort]
  by_cases hlast : u16 (portOf g + 1) = 0
  · rw [if_pos hlast]
    simp only [portOf, u16, EPHEMERAL_PORTS] at hlast ⊢
    omega
  · rw [if_neg hlast]
    simp only [portOf, u16, EPHEMERAL_PORTS] at hlast ⊢
    omega

theorem portOf_eq_iff {g : Nat} (h : g < n) : portOf g = portOf n ↔ EPHEMERAL_PORTS ∣ n - g := by
  simp only [portOf, EPHEMERAL_PORTS]
  omega

/-- The counter stands at the port of the next connection, and connections in
    use have the ports of their numbers. -/
structure Numbered (s : World) : Prop where
  next : s.stack.nextLocalPort = portOf s.opened
  used : ∀ i, (s.conns i).inUse = true →
    ∃ g, g < s.opened ∧ s.gen i = some g ∧ (s.conns i).localPort = portOf g

theorem numbered_boot : Numbered World.boot where
  next := rfl
  used := fun _ hi => absurd hi Bool.false_ne_true

theorem numbered_step (h : Numbered s) (hs : Step s e t) : Numbered t := by
  cases hs with
  | slot _ i c f hslot =>
    refine ⟨by rw [hslot.port, hslot.opened]; exact h.next, fun j hj => ?_⟩
    rw [hslot.conns] at hj ⊢
    rw [hslot.gen, hslot.opened]
    by_cases hji : j = i
    · rw [hji, update_self] at hj ⊢
      rcases h.used i ((hslot.turn History.new).inUse hj) with ⟨g, hg, hgen, hport⟩
      exact ⟨g, hg, hgen, hslot.ends.2.2.trans hport⟩
    · rw [update_of_ne hji] at hj ⊢
      exact h.used j hj
  | opens _ remoteIp remotePort i _ _ hconns hport hgen hopened _ _ =>
    refine ⟨by rw [hport, hopened, h.next, bumpPort_portOf], fun j hj => ?_⟩
    rw [hconns] at hj ⊢
    rw [hgen, hopened]
    by_cases hji : j = i
    · rw [hji, update_self, update_self]
      exact ⟨s.opened, Nat.lt_succ_self _, rfl, h.next⟩
    · rw [update_of_ne hji] at hj ⊢
      rw [update_of_ne hji]
      rcases h.used j hj with ⟨g, hg, hrest⟩
      exact ⟨g, Nat.lt_succ_of_lt hg, hrest⟩
  | idle _ hstack hgen hopened _ _ =>
    refine ⟨by rw [hstack, hopened]; exact h.next, fun j hj => ?_⟩
    rw [World.conns, hstack] at hj ⊢
    rw [hgen, hopened]
    exact h.used j hj

theorem numbered_reachable (hs : users.Reachable s) : Numbered s := by
  refine Machine.Reachable.invariant Numbered ?_ ?_ hs
  · rintro s rfl
    exact numbered_boot
  · intro s t e h _ he
    exact numbered_step h (step_of_exec he)

/-! ### What decides it -/

/-- No connection in use to the same remote endpoint is a multiple of the
    ephemeral ports older than the one that is opened. -/
def PortFree (s : World) : Event → Prop
  | .connect _ remoteIp remotePort => tcpAllocConn s.conns ≠ none →
      ∀ i g, (s.conns i).inUse = true → s.gen i = some g → (s.conns i).remoteIp = remoteIp →
        (s.conns i).remotePort = remotePort → ¬ EPHEMERAL_PORTS ∣ s.opened - g
  | _ => True

theorem portFree_of_opensNone (h : OpensNone s e) : PortFree s e := by
  cases e with
  | connect c remoteIp remotePort => exact fun hsome => absurd (h c remoteIp remotePort rfl) hsome
  | _ => trivial

/-- In a state with distinct connections the next one has them exactly if the
    port of a connection that is opened is free. -/
theorem ownTuple_step (hn : Numbered s) (h : OwnTuple s) (hs : Step s e t) :
    OwnTuple t ↔ PortFree s e := by
  rw [ownTuple_iff] at h ⊢
  cases hs with
  | slot hnone i c f hslot =>
    refine ⟨fun _ => portFree_of_opensNone hnone, fun _ => ?_⟩
    rw [hslot.conns]
    exact distinct_update h hslot.ends (hslot.turn History.new).inUse
  | idle hnone hstack _ _ _ _ =>
    refine ⟨fun _ => portFree_of_opensNone hnone, fun _ => ?_⟩
    rw [World.conns, hstack]
    exact h
  | opens c remoteIp remotePort i hevent halloc hconns _ _ _ _ _ =>
    rw [hconns, distinct_opened h (tcpAllocConn_free halloc) rfl, hevent]
    constructor
    · intro hno _ j g hj hgen hip hport hdvd
      rcases hn.used j hj with ⟨g', hlt, hgen', hlocal⟩
      have hgg : g' = g := Option.some.inj (hgen'.symm.trans hgen)
      rw [hgg] at hlt hlocal
      refine hno j hj ⟨hip, hport, ?_⟩
      rw [hlocal, (portOf_eq_iff hlt).mpr hdvd]
      exact hn.next.symm
    · intro hfresh j hj hends
      rcases hn.used j hj with ⟨g, hlt, hgen, hlocal⟩
      have hsome : tcpAllocConn s.conns ≠ none := by
        rw [halloc]
        exact Option.some_ne_none i
      refine hfresh hsome j g hj hgen hends.1 hends.2.1 ((portOf_eq_iff hlt).mp ?_)
      rw [← hlocal, hends.2.2]
      exact hn.next

theorem ownTuple_boot : OwnTuple World.boot :=
  (ownTuple_iff _).mpr (fun _ _ hi => absurd hi Bool.false_ne_true)

/-- In every run: every connection in use has a tuple of its own, and is found
    by it, in every state of the run, exactly if every connection is opened
    with no connection in use to the same remote endpoint a multiple of 16384
    older. -/
theorem ownTuple_iff_portFree {es : List Event} {s : World}
    (hrun : users.run World.boot es = some s) :
    users.Throughout World.boot es OwnTuple ↔ users.Keeps World.boot es PortFree :=
  Machine.throughout_iff_keeps rfl ownTuple_boot
    (fun _ _ _ hu he h => ownTuple_step (numbered_reachable hu) h (step_of_exec he)) hrun

def firstSlot : Fin TCP_MAX_CONNS := ⟨0, zero_lt_conns⟩
def nextSlot : Fin TCP_MAX_CONNS := ⟨1, one_lt_conns⟩

/-- Two callers connect to one server, and both connections are in use. -/
theorem ownTuple_iff_portFree_two :
    ∃ s, users.run World.boot [.connect 0 0x0A000202 80, .connect 1 0x0A000202 80] = some s ∧
      (s.conns firstSlot).inUse = true ∧ (s.conns nextSlot).inUse = true ∧
      (users.Throughout World.boot [.connect 0 0x0A000202 80, .connect 1 0x0A000202 80] OwnTuple ↔
        users.Keeps World.boot [.connect 0 0x0A000202 80, .connect 1 0x0A000202 80] PortFree) :=
  ⟨_, rfl, rfl, rfl, ownTuple_iff_portFree rfl⟩

/-! ### A connection that stays open -/

theorem eq_firstSlot : ∀ j, j < nextSlot → j = firstSlot := by decide

/-- The first connection is in use; all others are over, and of the callers
    only as many as there were connections are busy. -/
structure Held (s : World) (n : Nat) : Prop where
  reachable : users.Reachable s
  opened : s.opened = n
  used : (s.conns firstSlot).inUse = true
  gen : s.gen firstSlot = some 0
  ip : (s.conns firstSlot).remoteIp = 0x0A000202
  port : (s.conns firstSlot).remotePort = 80
  free : ∀ i, i ≠ firstSlot → (s.conns i).inUse = false
  idle : ∀ c, n ≤ c → s.calls c = .idle

theorem held_alloc (h : Held s n) : tcpAllocConn s.conns = some nextSlot := by
  refine Fin.find?_eq_some_iff.mpr ⟨?_, fun j hj => ?_⟩
  · rw [h.free nextSlot (by decide)]
    rfl
  · rw [eq_firstSlot j hj, h.used]
    rfl

theorem held_first : ∃ s, Held s 1 := by
  refine ⟨World.boot.onConnect 0 0x0A000202 80, ?_, rfl, rfl, rfl, rfl, rfl, ?_, ?_⟩
  · exact Machine.Reachable.step _ _ (Event.connect 0 0x0A000202 80)
      (Machine.Reachable.start _ rfl) trivial rfl
  · intro i hi
    have hconns : (World.boot.onConnect 0 0x0A000202 80).conns =
        Function.update World.boot.conns firstSlot (synConn 0x0A000202 80 49152 0) := rfl
    rw [hconns, update_of_ne hi]
    rfl
  · intro c hc
    have hcalls : (World.boot.onConnect 0 0x0A000202 80).calls =
        Function.update World.boot.calls 0 (.connecting ⟨firstSlot, 0, 0⟩) := rfl
    rw [hcalls, update_of_ne (by omega)]
    rfl

/-- A connection to this port of the same server is opened. -/
theorem held_connect (h : Held s n) (remotePort : Nat) :
    ∃ t, users.Reachable t ∧ t.opened = n + 1 ∧
      t.conns = Function.update s.conns nextSlot
        (synConn 0x0A000202 remotePort (portOf n) s.ticks) ∧
      t.gen = Function.update s.gen nextSlot (some n) ∧ ∀ c, n + 1 ≤ c → t.calls c = .idle := by
  have hnext : s.stack.nextLocalPort = portOf n := by
    rw [← h.opened]
    exact (numbered_reachable h.reachable).next
  have hstart : connectStart 0x0A000202 remotePort s.ticks s.stack =
      some ({ conns := Function.update s.conns nextSlot
                (synConn 0x0A000202 remotePort (portOf n) s.ticks),
              nextLocalPort := bumpPort (portOf n) },
        { slot := nextSlot, attempt := 0, start := s.ticks },
        tcpSendSegment (synConn 0x0A000202 remotePort (portOf n) s.ticks) TCP_SYN []) := by
    have halloc : tcpAllocConn s.stack.conns = some nextSlot := held_alloc h
    simp only [connectStart, halloc, hnext]
    rfl
  have hexec : users.exec s (.connect n 0x0A000202 remotePort) =
      some (s.onConnect n 0x0A000202 remotePort) := by
    simp only [users, World.exec, h.idle n (Nat.le_refl n)]
  refine ⟨_, Machine.Reachable.step _ _ _ h.reachable trivial hexec, ?_⟩
  simp only [World.onConnect, hstart, World.conns, h.opened]
  refine ⟨trivial, trivial, trivial, fun c hc => ?_⟩
  rw [update_of_ne (by omega)]
  exact h.idle c (by omega)

/-- What a segment that finds a connection changes. -/
theorem onRx_some {srcIp : Nat} {seg : Segment}
    (h : tcpFindConn s.conns srcIp seg.srcPort seg.dstPort = some i) :
    (s.onRx srcIp seg).conns = Function.update s.conns i (rxConn seg (s.conns i)).1 ∧
      (s.onRx srcIp seg).gen = s.gen ∧ (s.onRx srcIp seg).calls = s.calls ∧
      (s.onRx srcIp seg).opened = s.opened := by
  simp only [World.onRx, Tcp.rx, h]
  rw [World.see_eq]
  exact ⟨rfl, rfl, rfl, rfl⟩

/-- The server refuses the connection from this port. -/
def refuse (localPort : Nat) : Segment where
  srcPort := 81
  dstPort := localPort
  seq := 0
  ack := 0
  flags := TCP_RST
  payload := []

/-- One more connection is opened and refused. -/
theorem held_round (h : Held s n) : ∃ t, Held t (n + 1) := by
  rcases held_connect h 81 with ⟨u, hu, hopened, hconns, hgen, hidle⟩
  have hfirst : u.conns firstSlot = s.conns firstSlot := by
    rw [hconns, update_of_ne (by decide)]
  have hnew : u.conns nextSlot = synConn 0x0A000202 81 (portOf n) s.ticks := by
    rw [hconns, update_self]
  -- The refusal is for the new connection: the first has another port.
  have hfind : tcpFindConn u.conns 0x0A000202 81 (portOf n) = some nextSlot := by
    refine tcpFindConn_eq_some.mpr ⟨?_, fun j hj => ?_⟩
    · rw [hnew]
      exact matches_iff.mpr ⟨rfl, rfl, rfl, rfl⟩
    · rw [eq_firstSlot j hj, hfirst, ← Bool.not_eq_true, matches_iff, h.port]
      rintro ⟨_, _, hport, _⟩
      exact absurd hport (by decide)
  have hreset : hasFlag (refuse (portOf n)).flags TCP_RST = true := by
    have hflag : hasFlag TCP_RST TCP_RST = true := by decide
    exact hflag
  rcases onRx_some (show tcpFindConn u.conns _ (refuse (portOf n)).srcPort
    (refuse (portOf n)).dstPort = some nextSlot from hfind) with ⟨hafter, hgen', hcalls', hopened'⟩
  have hfirst' : (u.onRx 0x0A000202 (refuse (portOf n))).conns firstSlot = s.conns firstSlot := by
    rw [hafter, update_of_ne (by decide), hfirst]
  refine ⟨u.onRx 0x0A000202 (refuse (portOf n)),
    Machine.Reachable.step _ _ (Event.rx _ _) hu trivial rfl, hopened'.trans hopened, ?_, ?_, ?_,
    ?_, fun i hi => ?_, fun c hc => ?_⟩
  · rw [hfirst']
    exact h.used
  · rw [hgen', hgen, update_of_ne (by decide)]
    exact h.gen
  · rw [hfirst']
    exact h.ip
  · rw [hfirst']
    exact h.port
  · rw [hafter]
    by_cases hi1 : i = nextSlot
    · rw [hi1, update_self, rxConn, if_pos hreset]
    · rw [update_of_ne hi1, hconns, update_of_ne hi1]
      exact h.free i hi
  · rw [hcalls']
    exact hidle c hc

/-- The first connection outlasts any number of others. -/
theorem held_rounds (n : Nat) : ∃ s, Held s (n + 1) := by
  induction n with
  | zero => exact held_first
  | succ k ih =>
    rcases ih with ⟨s, hs⟩
    exact held_round hs

/-- One connection stays open while 16383 others are opened and refused. The
    next one to the same server gets its port: two connections in use have
    the same tuple, and segments for the second go to the first. -/
theorem ownTuple_wrapped :
    ∃ s, users.Reachable s ∧ (s.conns firstSlot).inUse = true ∧
      (s.conns nextSlot).inUse = true ∧ SameEnds (s.conns firstSlot) (s.conns nextSlot) ∧
      ¬ OwnTuple s := by
  rcases held_rounds 16383 with ⟨s, hs⟩
  rcases held_connect hs 80 with ⟨t, ht, _, hconns, hgen, _⟩
  have hfirst : t.conns firstSlot = s.conns firstSlot := by
    rw [hconns, update_of_ne (by decide)]
  have hnext : t.conns nextSlot = synConn 0x0A000202 80 (portOf 16384) s.ticks := by
    rw [hconns, update_self]
  have hlocal : (s.conns firstSlot).localPort = portOf 16384 := by
    rcases (numbered_reachable hs.reachable).used firstSlot hs.used with ⟨g, _, hg, hport⟩
    rw [hs.gen, Option.some.injEq] at hg
    rw [hport, ← hg]
    decide
  have hsame : SameEnds (t.conns firstSlot) (t.conns nextSlot) := by
    rw [hfirst, hnext]
    exact ⟨hs.ip, hs.port, hlocal⟩
  have h0 : (t.conns firstSlot).inUse = true := by rw [hfirst]; exact hs.used
  have h1 : (t.conns nextSlot).inUse = true := by rw [hnext]; rfl
  refine ⟨t, ht, h0, h1, hsame, fun h => ?_⟩
  exact absurd (h.distinct _ _ h0 h1 hsame) (by decide)

end Users

end SysRust.Tcp
