import SysRust.Core.Net.Tcp
import SysRust.Lib.Machine

/-!
# What TCP Acknowledges It Keeps

One established connection, its peer, and the reader on the user side. The
peer delivers its stream in order and stays inside the advertised window;
segments of other endpoints may arrive at any time. Interrupts can come
between any two steps of `recv`, so the reader takes its steps one by one
and every interleaving is a run.

A session records what neither side keeps: the stream the peer has
delivered, the bytes `recv` has returned, and the last acknowledgement
number that was sent. From the latter the peer computes which part of its
stream is covered, and `AckedKept` says that this part is what was returned
followed by what the buffer holds.

The receive buffer keeps one cell free, so it holds 4095 bytes while the
window promises 4096. A segment that fills the window completely loses its
last byte, and the byte is acknowledged all the same. As long as every
segment fits, acknowledged bytes are kept; the first that does not fit
breaks it.

## Main definitions

* `Session`, `Event`, `sessions`: The connection with its peer and reader.
* `covered`: The part of the stream the last acknowledgement covers.
* `AckedKept`: What is covered was returned or is held.
* `Fits`: A segment's payload fits in the receive buffer.
* `Sound`, `Steady`: What holds whatever arrives, and a step in which nothing
  does.
* `ring`: The receive buffer alone, filled byte by byte.
* `Inv`: The invariant of a session whose segments all fit.

## Theorems

* `pushBytes_spec`: What the copy loop stores.
* `rx_arrived`: What a segment of the peer does, whatever its number.
* `steady_or_peer`: Every other event delivers nothing.
* `inv_rx_peer`: A segment of the peer keeps the invariant.
* `inv_step`: One event keeps the invariant.
* `rx_overflow`: A segment that does not fit breaks `AckedKept`.
* `acked_kept_iff`: Acknowledged bytes are kept exactly while segments fit.
* `ring_fifo`: The receive buffer is a bounded queue.
-/

namespace SysRust.Tcp

open Function List

/-- Where the reader is. -/
inductive Reader where
  | idle
  | waiting (maxLen : Nat)
  | copying (r : Copying)

/-- A connection with the history of its peer and its reader. -/
structure Session where
  conns : Conns
  conn : Fin TCP_MAX_CONNS
  isn : Nat
  stream : List UInt8
  finSent : Bool
  returned : List UInt8
  ackNum : Nat
  reader : Reader

inductive Event where
  | rx (srcIp : Nat) (seg : Segment)
  | send (data : List UInt8)
  | recvStart (maxLen : Nat)
  | recvTimeout
  | recvSnapshot
  | recvByte
  | recvFinish

namespace Session

/-- The connection the session is about. -/
def here (s : Session) : TcpConn := s.conns s.conn

/-- The bytes between `rx_tail` and `rx_head`. -/
def held (s : Session) : List UInt8 :=
  Ring.contents TCP_RX_BUF_SIZE s.here.rxBuf s.here.rxHead s.here.rxTail

/-- The segment comes from the connection's peer. -/
def fromPeer (s : Session) (srcIp : Nat) (seg : Segment) : Bool :=
  srcIp == s.here.remoteIp && seg.srcPort == s.here.remotePort && seg.dstPort == s.here.localPort

/-- The sequence numbers the peer has used: its bytes and its FIN. -/
def seqLen (s : Session) : Nat := s.stream.length + s.finSent.toNat

/-- The last acknowledgement number after sending `out`. -/
def lastAck (s : Session) (out : List SentSegment) : Nat :=
  out.foldl (fun a o =>
    if o.remoteIp = s.here.remoteIp ∧ o.dstPort = s.here.remotePort ∧
        o.srcPort = s.here.localPort ∧ hasFlag o.flags TCP_ACK = true
    then o.ackNum else a) s.ackNum

/-- The part of the delivered stream that the peer knows to be covered. -/
def covered (s : Session) : List UInt8 :=
  s.stream.take (s.seqLen - wrappingSub32 (s.isn + s.seqLen) s.ackNum)

end Session

/-- The peer's next segment: not a reset, in order, without duplicates, and
    inside the window. -/
structure InOrder (s : Session) (seg : Segment) : Prop where
  noReset : hasFlag seg.flags TCP_RST = false
  next : seg.payload ≠ [] ∨ hasFlag seg.flags TCP_FIN = true →
    s.finSent = false ∧ seg.seq = u32 (s.isn + s.stream.length)
  window : s.stream.length + seg.payload.length ≤ s.returned.length + TCP_WINDOW

/-- What may happen: the peer keeps to its protocol and the reader takes its
    steps in turn. -/
def Allowed (s : Session) : Event → Prop
  | .rx srcIp seg => s.fromPeer srcIp seg = true → InOrder s seg
  | .send _ => True
  | .recvStart _ => s.reader = .idle
  | .recvTimeout => ∃ n, s.reader = .waiting n
  | .recvSnapshot => ∃ n, s.reader = .waiting n
  | .recvByte => ∃ r, s.reader = .copying r ∧ r.copied.length < r.count
  | .recvFinish => ∃ r, s.reader = .copying r ∧ r.copied.length = r.count

/-- Handle a segment, and note what the peer has delivered. -/
def Session.onRx (s : Session) (srcIp : Nat) (seg : Segment) : Session :=
  let out := rx srcIp seg s.conns
  { s with
    conns := out.1
    ackNum := s.lastAck out.2
    stream := if s.fromPeer srcIp seg then s.stream ++ seg.payload else s.stream
    finSent := if s.fromPeer srcIp seg then s.finSent || hasFlag seg.flags TCP_FIN else s.finSent }

def Session.onSend (s : Session) (data : List UInt8) : Session :=
  let out := send data s.here
  { s with
    conns := Function.update s.conns s.conn out.1
    ackNum := s.lastAck out.2 }

/-- `recv` reads the indices: it returns at once if there is nothing. -/
def Session.onSnapshot (s : Session) (maxLen : Nat) : Session :=
  match recvSnapshot maxLen s.here with
  | none => { s with reader := .idle }
  | some r => { s with reader := .copying r }

/-- `recv` writes `rx_tail` and returns what it copied. -/
def Session.onFinish (s : Session) (r : Copying) : Session :=
  { s with
    conns := Function.update s.conns s.conn (recvFinish r s.here)
    returned := s.returned ++ r.copied
    reader := .idle }

def exec (s : Session) : Event → Option Session
  | .rx srcIp seg => some (s.onRx srcIp seg)
  | .send data => some (s.onSend data)
  | .recvStart maxLen =>
    some { s with reader := if s.here.inUse = true then .waiting maxLen else .idle }
  | .recvTimeout => some { s with reader := .idle }
  | .recvSnapshot =>
    match s.reader with
    | .waiting maxLen => some (s.onSnapshot maxLen)
    | _ => none
  | .recvByte =>
    match s.reader with
    | .copying r => some { s with reader := .copying (recvByte r s.here) }
    | _ => none
  | .recvFinish =>
    match s.reader with
    | .copying r => some (s.onFinish r)
    | _ => none

/-- A connection right after its handshake: the buffer is empty and the last
    acknowledgement asks for the first byte of the stream. -/
structure Fresh (s : Session) : Prop where
  inUse : s.here.inUse = true
  state : s.here.state = .established
  found : tcpFindConn s.conns s.here.remoteIp s.here.remotePort s.here.localPort = some s.conn
  empty : s.here.rxHead = s.here.rxTail
  bound : s.here.rxTail < TCP_RX_BUF_SIZE
  sendAck : s.here.sendAck = u32 s.isn
  ackNum : s.ackNum = u32 s.isn
  history : s.stream = [] ∧ s.returned = [] ∧ s.finSent = false
  reader : s.reader = .idle

def sessions : Machine Session Event where
  start := Fresh
  allows := Allowed
  exec := exec

/-- The stream bytes covered by the acknowledgement are the ones returned,
    in order, followed by the ones in the buffer. -/
def AckedKept (s : Session) : Prop := s.covered = s.returned ++ s.held

/-- The payload of a segment of the peer fits in the receive buffer, which
    keeps one of its cells free. Once the peer has closed nothing is stored. -/
def Fits (s : Session) : Event → Prop
  | .rx srcIp seg => s.fromPeer srcIp seg = true → s.here.state = .established →
      s.held.length + seg.payload.length < TCP_RX_BUF_SIZE
  | _ => True

/-! ### Segments and connections -/

theorem matches_iff {c : TcpConn} {ip rp lp : Nat} :
    c.matches ip rp lp = true ↔
      c.inUse = true ∧ c.remoteIp = ip ∧ c.remotePort = rp ∧ c.localPort = lp := by
  simp only [TcpConn.matches, Bool.and_eq_true, beq_iff_eq, and_assoc]

theorem fromPeer_iff (s : Session) (srcIp : Nat) (seg : Segment) :
    s.fromPeer srcIp seg = true ↔
      srcIp = s.here.remoteIp ∧ seg.srcPort = s.here.remotePort ∧
        seg.dstPort = s.here.localPort := by
  simp only [Session.fromPeer, Bool.and_eq_true, beq_iff_eq, and_assoc]

/-- Two connections have the same endpoints. -/
def SameEnds (c d : TcpConn) : Prop :=
  c.remoteIp = d.remoteIp ∧ c.remotePort = d.remotePort ∧ c.localPort = d.localPort

/-- The acknowledgement a connection sends. -/
def ackOf (c : TcpConn) : SentSegment where
  remoteIp := c.remoteIp
  srcPort := c.localPort
  dstPort := c.remotePort
  seqNum := c.sendSeq
  ackNum := c.sendAck
  flags := TCP_ACK
  window := TCP_WINDOW
  data := []

theorem tcpSendSegment_ack (c : TcpConn) : tcpSendSegment c TCP_ACK [] = [ackOf c] := rfl

variable {c d : TcpConn} {seg : Segment} {srcIp ip lp rp k n : Nat} {conns : Conns}
  {i : Fin TCP_MAX_CONNS} {s t : Session} {o : SentSegment} {out : List SentSegment}

/-- A segment is sent to the endpoints of its connection. -/
theorem tcpSendSegment_ends {f : BitVec 8} {data : List UInt8} (h : o ∈ tcpSendSegment c f data) :
    o.remoteIp = c.remoteIp ∧ o.dstPort = c.remotePort ∧ o.srcPort = c.localPort ∧
      o.ackNum = c.sendAck := by
  unfold tcpSendSegment at h
  by_cases hlen : u16 (20 + data.length) > 1480
  · rw [if_pos hlen] at h
    exact absurd h not_mem_nil
  · rw [if_neg hlen] at h
    rw [mem_singleton.mp h]
    exact ⟨rfl, rfl, rfl, rfl⟩

/-- Storing bytes changes nothing but the buffer. -/
theorem pushBytes_keeps (bs : List UInt8) (c : TcpConn) :
    SameEnds (pushBytes bs c) c ∧ (pushBytes bs c).inUse = c.inUse ∧
      (pushBytes bs c).state = c.state := by
  fun_induction pushBytes bs c with
  | case1 | case2 => exact ⟨⟨rfl, rfl, rfl⟩, rfl, rfl⟩
  | case3 =>
    rename_i ih
    exact ih

/-- The connection has an answer to the segment. -/
def Expected (seg : Segment) (c : TcpConn) : Prop :=
  match c.state with
  | .synSent => hasFlag seg.flags TCP_SYN = true ∧ hasFlag seg.flags TCP_ACK = true ∧
      seg.ack = u32 (c.sendSeq + 1)
  | .established => seg.payload ≠ [] ∨ hasFlag seg.flags TCP_FIN = true
  | .finWait1 => hasFlag seg.flags TCP_ACK = true ∧ hasFlag seg.flags TCP_FIN = true
  | .finWait2 => hasFlag seg.flags TCP_FIN = true
  | .timeWait | .closed => False

/-- How the state changes. -/
inductive Moved (seg : Segment) (c : TcpConn) (st : TcpState) : Prop
  | same (hst : st = c.state) (hf : c.state = .established → hasFlag seg.flags TCP_FIN = false)
  | opens (hc : c.state = .synSent) (hst : st = .established)
  | peerFin (hc : c.state = .established) (hf : hasFlag seg.flags TCP_FIN = true)
      (hst : st = .timeWait)
  | answered (hc : c.state = .finWait1 ∨ c.state = .finWait2)
      (hst : st = .finWait2 ∨ st = .timeWait)

/-- What a segment that is not a reset does: the endpoints stay, and only
    acknowledgements are sent. -/
structure Served (seg : Segment) (c : TcpConn) (r : TcpConn × List SentSegment) : Prop where
  ends : SameEnds r.1 c
  inUse : r.1.inUse = c.inUse
  state : Moved seg c r.1.state
  sent : ∀ o ∈ r.2, ∃ e, SameEnds e c ∧ o = ackOf e
  answers : r.2 ≠ [] ↔ Expected seg c
  ignored : r = (c, []) ↔
    ¬Expected seg c ∧ ¬(c.state = .finWait1 ∧ hasFlag seg.flags TCP_ACK = true)

theorem sameEnds_refl (c : TcpConn) : SameEnds c c := ⟨rfl, rfl, rfl⟩

/-- A segment that is answered with one acknowledgement. -/
theorem served_ack {e : TcpConn} (hd : SameEnds d c) (hu : d.inUse = c.inUse)
    (hm : Moved seg c d.state) (he : SameEnds e c) (hexp : Expected seg c) :
    Served seg c (d, tcpSendSegment e TCP_ACK []) :=
  ⟨hd, hu, hm, fun _ ho => ⟨e, he, mem_singleton.mp ho⟩,
    iff_of_true (cons_ne_nil _ _) hexp,
    iff_of_false (fun h => cons_ne_nil _ _ (Prod.mk.inj h).2) (fun h => h.1 hexp)⟩

/-- A segment that the connection ignores. -/
theorem served_same (hf : c.state = .established → hasFlag seg.flags TCP_FIN = false)
    (hexp : ¬Expected seg c) (hack : ¬(c.state = .finWait1 ∧ hasFlag seg.flags TCP_ACK = true)) :
    Served seg c (c, []) :=
  ⟨sameEnds_refl c, rfl, .same rfl hf, forall_mem_nil _, iff_of_false (fun h => h rfl) hexp,
    iff_of_true rfl ⟨hexp, hack⟩⟩

theorem rxSynSent_served (hc : c.state = .synSent) (seg : Segment) :
    Served seg c (rxSynSent seg c) := by
  have hexp : Expected seg c ↔ hasFlag seg.flags TCP_SYN = true ∧ hasFlag seg.flags TCP_ACK = true ∧
      seg.ack = u32 (c.sendSeq + 1) := by rw [Expected, hc]
  have hsame (h : ¬Expected seg c) : Served seg c (c, []) :=
    served_same (by rw [hc]; nofun) h (by rw [hc]; nofun)
  unfold rxSynSent
  split_ifs with hflags hack
  · exact hsame (fun h => hack (hexp.mp h).2.2)
  · rw [Bool.and_eq_true] at hflags
    exact served_ack ⟨rfl, rfl, rfl⟩ rfl (.opens hc rfl) ⟨rfl, rfl, rfl⟩
      (hexp.mpr ⟨hflags.1, hflags.2, not_not.mp hack⟩)
  · rw [Bool.and_eq_true] at hflags
    exact hsame (fun h => hflags ⟨(hexp.mp h).1, (hexp.mp h).2.1⟩)

theorem rxEstablished_served (hc : c.state = .established) (seg : Segment) :
    Served seg c (rxEstablished seg c) := by
  rcases pushBytes_keeps seg.payload c with ⟨hends, huse, hstate⟩
  have hexp : Expected seg c ↔ seg.payload ≠ [] ∨ hasFlag seg.flags TCP_FIN = true := by
    rw [Expected, hc]
  have hlen : seg.payload.length > 0 ↔ seg.payload ≠ [] := length_pos_iff
  unfold rxEstablished rxPayload
  by_cases hp : seg.payload.length > 0 <;> by_cases hf : hasFlag seg.flags TCP_FIN = true <;>
    simp only [hp, hf, if_true, if_false, Bool.false_eq_true]
  · refine ⟨hends, huse, .peerFin hc hf rfl, fun o ho => ?_, ?_, ?_⟩
    · rcases mem_append.mp ho with ho | ho <;>
        refine ⟨_, ?_, mem_singleton.mp ho⟩ <;> exact hends
    · exact iff_of_true (cons_ne_nil _ _) (hexp.mpr (Or.inr hf))
    · exact iff_of_false (fun h => cons_ne_nil _ _ (Prod.mk.inj h).2)
        (fun h => h.1 (hexp.mpr (Or.inr hf)))
  · exact served_ack hends huse (.same hstate (fun _ => Bool.not_eq_true _ ▸ hf)) hends
      (hexp.mpr (Or.inl (hlen.mp hp)))
  · exact served_ack ⟨rfl, rfl, rfl⟩ rfl (.peerFin hc hf rfl) ⟨rfl, rfl, rfl⟩
      (hexp.mpr (Or.inr hf))
  · refine served_same (fun _ => Bool.not_eq_true _ ▸ hf) (fun h => ?_) (by rw [hc]; nofun)
    exact (hexp.mp h).elim (fun hne => hp (hlen.mpr hne)) hf

theorem rxFinWait1_served (hc : c.state = .finWait1) (seg : Segment) :
    Served seg c (rxFinWait1 seg c) := by
  have hexp : Expected seg c ↔ hasFlag seg.flags TCP_ACK = true ∧
      hasFlag seg.flags TCP_FIN = true := by rw [Expected, hc]
  unfold rxFinWait1
  split_ifs with hack hf
  · exact served_ack ⟨rfl, rfl, rfl⟩ rfl (.answered (Or.inl hc) (Or.inr rfl)) ⟨rfl, rfl, rfl⟩
      (hexp.mpr ⟨hack, hf⟩)
  · refine ⟨⟨rfl, rfl, rfl⟩, rfl, .answered (Or.inl hc) (Or.inl rfl), forall_mem_nil _, ?_, ?_⟩
    · exact iff_of_false (fun h => h rfl) (fun h => hf (hexp.mp h).2)
    · refine iff_of_false (fun h => ?_) (fun h => h.2 ⟨hc, hack⟩)
      have hst : TcpState.finWait2 = .finWait1 :=
        (congrArg TcpConn.state (Prod.mk.inj h).1).trans hc
      cases hst
  · exact served_same (by rw [hc]; nofun) (fun h => hack (hexp.mp h).1) (fun h => hack h.2)

theorem rxFinWait2_served (hc : c.state = .finWait2) (seg : Segment) :
    Served seg c (rxFinWait2 seg c) := by
  have hexp : Expected seg c ↔ hasFlag seg.flags TCP_FIN = true := by rw [Expected, hc]
  unfold rxFinWait2
  split_ifs with hf
  · exact served_ack ⟨rfl, rfl, rfl⟩ rfl (.answered (Or.inr hc) (Or.inr rfl)) ⟨rfl, rfl, rfl⟩
      (hexp.mpr hf)
  · exact served_same (by rw [hc]; nofun) (fun h => hf (hexp.mp h)) (by rw [hc]; nofun)

/-- What a segment can do to the connection it is for. -/
theorem rxConn_cases (seg : Segment) (c : TcpConn) :
    (hasFlag seg.flags TCP_RST = true ∧ rxConn seg c =
      ({ c with state := .closed, inUse := false, connected := false, finReceived := true }, [])) ∨
    (hasFlag seg.flags TCP_RST = false ∧ Served seg c (rxConn seg c)) := by
  unfold rxConn
  cases hr : hasFlag seg.flags TCP_RST with
  | true => exact Or.inl ⟨rfl, rfl⟩
  | false =>
    refine Or.inr ⟨rfl, ?_⟩
    rw [if_neg Bool.false_ne_true]
    cases hc : c.state with
    | synSent => exact rxSynSent_served hc seg
    | established => exact rxEstablished_served hc seg
    | finWait1 => exact rxFinWait1_served hc seg
    | finWait2 => exact rxFinWait2_served hc seg
    | timeWait | closed =>
      exact served_same (by rw [hc]; nofun) (by rw [Expected, hc]; exact not_false)
        (by rw [hc]; nofun)

/-- Only acknowledgements are sent, to the connection's endpoints. -/
theorem rxConn_sent (h : o ∈ (rxConn seg c).2) : ∃ e, SameEnds e c ∧ o = ackOf e := by
  rcases rxConn_cases seg c with ⟨_, hr⟩ | ⟨_, hs⟩
  · rw [hr] at h
    exact absurd h not_mem_nil
  · exact hs.sent o h

/-- What a segment leaves alone: the endpoints stay, a free slot stays free,
    and everything sent goes to the connection's endpoints. -/
structure Confined (c : TcpConn) (r : TcpConn × List SentSegment) : Prop where
  ends : SameEnds r.1 c
  inUse : r.1.inUse = true → c.inUse = true
  sent : ∀ o ∈ r.2, o.remoteIp = c.remoteIp ∧ o.dstPort = c.remotePort ∧ o.srcPort = c.localPort

theorem rxConn_confined (seg : Segment) (c : TcpConn) : Confined c (rxConn seg c) := by
  have hsent (o : SentSegment) (h : o ∈ (rxConn seg c).2) : o.remoteIp = c.remoteIp ∧
      o.dstPort = c.remotePort ∧ o.srcPort = c.localPort := by
    rcases rxConn_sent h with ⟨e, he, rfl⟩
    exact he
  rcases rxConn_cases seg c with ⟨_, hr⟩ | ⟨_, hs⟩
  · refine ⟨?_, fun h => ?_, hsent⟩
    · rw [hr]
      exact ⟨rfl, rfl, rfl⟩
    · rw [hr] at h
      exact absurd h Bool.false_ne_true
  · exact ⟨hs.ends, fun hu => hs.inUse ▸ hu, hsent⟩

/-- A reset is sent unless the segment is one. -/
theorem rxReset_ne_nil (srcIp : Nat) (seg : Segment) :
    rxReset srcIp seg ≠ [] ↔ hasFlag seg.flags TCP_RST = false := by
  unfold rxReset
  split_ifs with hr hack
  · exact iff_of_false (fun h => h rfl) (by rw [hr]; decide)
  · exact iff_of_true (cons_ne_nil _ _) (Bool.not_eq_true _ ▸ hr)
  · exact iff_of_true (cons_ne_nil _ _) (Bool.not_eq_true _ ▸ hr)

/-- A reset goes to the endpoints the segment came from. -/
theorem rxReset_sent (h : o ∈ rxReset srcIp seg) :
    o.remoteIp = srcIp ∧ o.dstPort = seg.srcPort ∧ o.srcPort = seg.dstPort := by
  unfold rxReset at h
  split_ifs at h
  · exact absurd h not_mem_nil
  · rcases tcpSendSegment_ends h with ⟨h1, h2, h3, _⟩
    exact ⟨h1, h2, h3⟩
  · rcases tcpSendSegment_ends h with ⟨h1, h2, h3, _⟩
    exact ⟨h1, h2, h3⟩

theorem tcpFindConn_eq_some :
    tcpFindConn conns ip rp lp = some i ↔ (conns i).matches ip rp lp = true ∧
      ∀ j, j < i → (conns j).matches ip rp lp = false :=
  Fin.find?_eq_some_iff

/-- A segment for another connection does not change which one is found. -/
theorem tcpFindConn_update {k : Fin TCP_MAX_CONNS} (h : tcpFindConn conns ip rp lp = some i)
    (hk : k ≠ i) (seg : Segment) :
    tcpFindConn (Function.update conns k (rxConn seg (conns k)).1) ip rp lp = some i := by
  rcases tcpFindConn_eq_some.mp h with ⟨hi, hbefore⟩
  refine tcpFindConn_eq_some.mpr ⟨?_, fun j hj => ?_⟩
  · rw [update_of_ne (Ne.symm hk)]
    exact hi
  · by_cases hjk : j = k
    · rw [hjk, update_self, ← Bool.not_eq_true, matches_iff]
      rintro ⟨huse, h1, h2, h3⟩
      -- It would have matched before the segment, too.
      have hc := rxConn_confined seg (conns k)
      have hold : (conns k).matches ip rp lp = true :=
        matches_iff.mpr
          ⟨hc.inUse huse, hc.ends.1 ▸ h1, hc.ends.2.1 ▸ h2, hc.ends.2.2 ▸ h3⟩
      rw [hbefore k (hjk ▸ hj)] at hold
      exact absurd hold Bool.false_ne_true
    · rw [update_of_ne hjk]
      exact hbefore j hj

/-- Nor does a change of the connection itself that keeps its endpoints. -/
theorem tcpFindConn_self (h : tcpFindConn conns ip rp lp = some i) (he : SameEnds c (conns i))
    (hu : c.inUse = true) : tcpFindConn (Function.update conns i c) ip rp lp = some i := by
  rcases tcpFindConn_eq_some.mp h with ⟨hi, hbefore⟩
  rcases matches_iff.mp hi with ⟨_, h1, h2, h3⟩
  refine tcpFindConn_eq_some.mpr ⟨?_, fun j hj => ?_⟩
  · rw [update_self]
    exact matches_iff.mpr ⟨hu, he.1.trans h1, he.2.1.trans h2, he.2.2.trans h3⟩
  · rw [update_of_ne (Fin.ne_of_lt hj)]
    exact hbefore j hj

/-! ### The last acknowledgement -/

theorem lastAck_foreign
    (h : ∀ o ∈ out, ¬ (o.remoteIp = s.here.remoteIp ∧ o.dstPort = s.here.remotePort ∧
      o.srcPort = s.here.localPort)) : s.lastAck out = s.ackNum := by
  unfold Session.lastAck
  generalize s.ackNum = a
  induction out generalizing a with
  | nil => rfl
  | cons o out ih =>
    rw [foldl_cons, if_neg (fun hm => h o mem_cons_self ⟨hm.1, hm.2.1, hm.2.2.1⟩)]
    exact ih (fun p hp => h p (mem_cons_of_mem _ hp)) a

theorem lastAck_ack (hc : SameEnds c s.here) (out : List SentSegment) :
    s.lastAck (out ++ [ackOf c]) = c.sendAck := by
  unfold Session.lastAck
  rw [foldl_append, foldl_cons, foldl_nil]
  have hflag : hasFlag (ackOf c).flags TCP_ACK = true := by
    show hasFlag TCP_ACK TCP_ACK = true
    decide
  exact if_pos ⟨hc.1, hc.2.1, hc.2.2, hflag⟩

/-- Everything sent with one acknowledgement number leaves that number. -/
theorem lastAck_const {a : Nat} (h0 : s.ackNum = a) (h : ∀ o ∈ out, o.ackNum = a) :
    s.lastAck out = a := by
  unfold Session.lastAck
  rw [h0]
  induction out with
  | nil => rfl
  | cons o out ih =>
    rw [foldl_cons, h o mem_cons_self, ite_self]
    exact ih (fun p hp => h p (mem_cons_of_mem _ hp))

/-! ### The receive buffer -/

/-- The buffer holds as many bytes more as there is room for. -/
def Takes (c : TcpConn) (bs : List UInt8) (buf : Nat → UInt8) (head : Nat) : Prop :=
  head < TCP_RX_BUF_SIZE ∧ Ring.contents TCP_RX_BUF_SIZE buf head c.rxTail =
    Ring.contents TCP_RX_BUF_SIZE c.rxBuf c.rxHead c.rxTail ++
      bs.take (TCP_RX_BUF_SIZE - 1 - Ring.count TCP_RX_BUF_SIZE c.rxHead c.rxTail)

/-- The copy loop appends as much of the payload as there is room for, and
    changes nothing else. -/
theorem pushBytes_spec (bs : List UInt8) (c : TcpConn) (hh : c.rxHead < TCP_RX_BUF_SIZE)
    (ht : c.rxTail < TCP_RX_BUF_SIZE) :
    ∃ buf head, pushBytes bs c = { c with rxBuf := buf, rxHead := head } ∧
      Takes c bs buf head := by
  induction bs generalizing c with
  | nil => exact ⟨c.rxBuf, c.rxHead, rfl, hh, by rw [take_nil, append_nil]⟩
  | cons b bs ih =>
    have hnext : u16 (c.rxHead + 1) % TCP_RX_BUF_SIZE = (c.rxHead + 1) % TCP_RX_BUF_SIZE := by
      simp only [u16, TCP_RX_BUF_SIZE] at hh ⊢
      omega
    have hcount := Ring.count_lt hh ht
    simp only [pushBytes, hnext, Takes]
    by_cases hfull : (c.rxHead + 1) % TCP_RX_BUF_SIZE = c.rxTail
    · -- Full: the rest is dropped.
      have hroom := (Ring.full_iff hh ht).mp hfull
      rw [if_pos hfull, show TCP_RX_BUF_SIZE - 1 -
        Ring.count TCP_RX_BUF_SIZE c.rxHead c.rxTail = 0 by omega]
      exact ⟨c.rxBuf, c.rxHead, rfl, hh, by rw [take_zero, append_nil]⟩
    · have hroom : Ring.count TCP_RX_BUF_SIZE c.rxHead c.rxTail + 1 ≠ TCP_RX_BUF_SIZE :=
        fun h => hfull ((Ring.full_iff hh ht).mpr h)
      rw [if_neg hfull]
      rcases ih { c with rxBuf := Function.update c.rxBuf c.rxHead b,
                         rxHead := (c.rxHead + 1) % TCP_RX_BUF_SIZE }
        (Ring.next_lt hh) ht with ⟨buf, head, he, hhead, hcont⟩
      refine ⟨buf, head, he, hhead, ?_⟩
      simp only [Ring.contents_push c.rxBuf b hh ht hfull, Ring.count_push hh ht hfull] at hcont
      rw [hcont, show TCP_RX_BUF_SIZE - 1 - Ring.count TCP_RX_BUF_SIZE c.rxHead c.rxTail =
        TCP_RX_BUF_SIZE - 1 - (Ring.count TCP_RX_BUF_SIZE c.rxHead c.rxTail + 1) + 1 by omega,
        take_succ_cons, append_assoc, singleton_append]

/-- The acknowledgement number after a segment. -/
def ackAfter (seg : Segment) (a : Nat) : Nat :=
  if hasFlag seg.flags TCP_FIN = true then u32 (u32 (seg.seq + seg.payload.length) + 1)
  else if seg.payload.length > 0 then u32 (seg.seq + seg.payload.length)
  else a

theorem rxPayload_spec (seg : Segment) (c : TcpConn) (hh : c.rxHead < TCP_RX_BUF_SIZE)
    (ht : c.rxTail < TCP_RX_BUF_SIZE) :
    ∃ buf head, (rxPayload seg c).1 = { c with
        rxBuf := buf
        rxHead := head
        sendAck := if seg.payload.length > 0 then u32 (seg.seq + seg.payload.length)
          else c.sendAck } ∧
      Takes c seg.payload buf head := by
  unfold rxPayload
  by_cases hp : seg.payload.length > 0
  · rcases pushBytes_spec seg.payload c hh ht with ⟨buf, head, he, hhead, hcont⟩
    simp only [if_pos hp]
    exact ⟨buf, head, by rw [he], hhead, hcont⟩
  · have hnil : seg.payload = [] := length_eq_zero_iff.mp (by omega)
    simp only [if_neg hp]
    exact ⟨c.rxBuf, c.rxHead, rfl, hh, by rw [hnil, take_nil, append_nil]⟩

/-- What a segment does to an established connection. -/
theorem rxEstablished_spec (seg : Segment) (c : TcpConn) (hh : c.rxHead < TCP_RX_BUF_SIZE)
    (ht : c.rxTail < TCP_RX_BUF_SIZE) :
    ∃ buf head, (rxEstablished seg c).1 = { c with
        rxBuf := buf
        rxHead := head
        sendAck := ackAfter seg c.sendAck
        state := if hasFlag seg.flags TCP_FIN = true then .timeWait else c.state
        finReceived := if hasFlag seg.flags TCP_FIN = true then true else c.finReceived } ∧
      Takes c seg.payload buf head := by
  rcases rxPayload_spec seg c hh ht with ⟨buf, head, he, hhead, hcont⟩
  refine ⟨buf, head, ?_, hhead, hcont⟩
  unfold rxEstablished ackAfter
  by_cases hf : hasFlag seg.flags TCP_FIN = true
  · simp only [if_pos hf, he]
  · simp only [if_neg hf, he]

/-- The last acknowledgement sent for a segment is the connection's own. -/
theorem rxEstablished_lastAck (s : Session) (seg : Segment) (h : s.ackNum = s.here.sendAck) :
    s.lastAck (rxEstablished seg s.here).2 = ackAfter seg s.here.sendAck := by
  have hends : SameEnds (rxPayload seg s.here).1 s.here := by
    unfold rxPayload
    split_ifs
    · exact (pushBytes_keeps seg.payload s.here).1
    · exact sameEnds_refl s.here
  unfold rxEstablished ackAfter
  by_cases hf : hasFlag seg.flags TCP_FIN = true
  · simp only [if_pos hf, tcpSendSegment_ack]
    exact lastAck_ack (c := { (rxPayload seg s.here).1 with
      sendAck := u32 (u32 (seg.seq + seg.payload.length) + 1) }) hends _
  · simp only [if_neg hf]
    unfold rxPayload at hends ⊢
    by_cases hp : seg.payload.length > 0
    · simp only [if_pos hp, tcpSendSegment_ack] at hends ⊢
      exact lastAck_ack (c := { pushBytes seg.payload s.here with
        sendAck := u32 (seg.seq + seg.payload.length) }) hends []
    · simp only [if_neg hp]
      exact h

/-! ### Sound sessions -/

/-- The bytes taken from the peer: the ones returned and the ones held. -/
def Session.stored (s : Session) : List UInt8 := s.returned ++ s.held

/-- What every session keeps, whatever its peer sends short of a reset: the
    segments of the peer find the connection, the last acknowledgement is the
    connection's own, and a reader in the middle of its copy has a prefix of
    what is held. -/
structure Sound (s : Session) : Prop where
  inUse : s.here.inUse = true
  found : tcpFindConn s.conns s.here.remoteIp s.here.remotePort s.here.localPort = some s.conn
  head : s.here.rxHead < TCP_RX_BUF_SIZE
  tail : s.here.rxTail < TCP_RX_BUF_SIZE
  phase : s.here.state = .established ∨ s.here.state = .timeWait
  acked : s.ackNum = s.here.sendAck
  reading : ∀ r, s.reader = .copying r → r.tail = s.here.rxTail ∧ r.count ≤ s.held.length ∧
    r.copied.length ≤ r.count ∧ r.copied = s.held.take r.copied.length

/-- From `s` to `t` nothing has arrived: bytes may have moved from the buffer
    to the reader, but they are the same bytes. -/
structure Steady (s t : Session) : Prop where
  sound : Sound t
  isn : t.isn = s.isn
  stream : t.stream = s.stream
  finSent : t.finSent = s.finSent
  state : t.here.state = s.here.state
  sendAck : t.here.sendAck = s.here.sendAck
  stored : t.stored = s.stored

theorem length_held (s : Session) :
    s.held.length = Ring.count TCP_RX_BUF_SIZE s.here.rxHead s.here.rxTail :=
  Ring.length_contents _

/-- The buffer is never completely full. -/
theorem held_lt (h : Sound s) : s.held.length < TCP_RX_BUF_SIZE := by
  rw [length_held]
  exact Ring.count_lt h.head h.tail

theorem held_start (h : Fresh s) : s.held = [] := by
  rw [← length_eq_zero_iff, length_held, h.empty]
  exact Ring.count_self h.bound

theorem sound_start (h : Fresh s) : Sound s where
  inUse := h.inUse
  found := h.found
  head := h.empty ▸ h.bound
  tail := h.bound
  phase := Or.inl h.state
  acked := h.ackNum.trans h.sendAck.symm
  reading := fun r hr => by rw [h.reader] at hr; exact Reader.noConfusion hr

/-! ### Incoming segments -/

/-- A segment of the peer goes to the connection. -/
theorem rx_peer (h : Sound s) (hp : s.fromPeer srcIp seg = true) :
    rx srcIp seg s.conns =
      (Function.update s.conns s.conn (rxConn seg s.here).1, (rxConn seg s.here).2) := by
  rcases (fromPeer_iff s srcIp seg).mp hp with ⟨h1, h2, h3⟩
  unfold rx
  rw [h1, h2, h3, h.found]
  rfl

/-- A change of the connection that keeps what the receive side uses. -/
theorem steady_of_here (h : Sound s) (ht : t.here = c)
    (hfound : tcpFindConn t.conns c.remoteIp c.remotePort c.localPort = some t.conn)
    (huse : c.inUse = true) (hstate : c.state = s.here.state) (hhead : c.rxHead < TCP_RX_BUF_SIZE)
    (htail : c.rxTail < TCP_RX_BUF_SIZE) (hack : c.sendAck = s.here.sendAck) (hisn : t.isn = s.isn)
    (hstream : t.stream = s.stream) (hfin : t.finSent = s.finSent) (hackNum : t.ackNum = s.ackNum)
    (hstored : t.stored = s.stored)
    (hread : ∀ r, t.reader = .copying r → r.tail = t.here.rxTail ∧ r.count ≤ t.held.length ∧
      r.copied.length ≤ r.count ∧ r.copied = t.held.take r.copied.length) : Steady s t where
  sound :=
    { inUse := by rw [ht]; exact huse
      found := by rw [ht]; exact hfound
      head := by rw [ht]; exact hhead
      tail := by rw [ht]; exact htail
      phase := by rw [ht, hstate]; exact h.phase
      acked := by rw [ht, hack, hackNum]; exact h.acked
      reading := hread }
  isn := hisn
  stream := hstream
  finSent := hfin
  state := by rw [ht, hstate]
  sendAck := by rw [ht, hack]
  stored := hstored

/-- A segment of anybody else leaves the connection as it is. -/
theorem steady_rx_other (h : Sound s) (hp : s.fromPeer srcIp seg = false) :
    Steady s (s.onRx srcIp seg) := by
  have hnot : ¬ (srcIp = s.here.remoteIp ∧ seg.srcPort = s.here.remotePort ∧
      seg.dstPort = s.here.localPort) := by
    rw [← fromPeer_iff, hp]
    exact Bool.false_ne_true
  -- Neither the connection nor its last acknowledgement changes.
  have hkeep : (rx srcIp seg s.conns).1 s.conn = s.here ∧
      tcpFindConn (rx srcIp seg s.conns).1 s.here.remoteIp s.here.remotePort s.here.localPort =
        some s.conn ∧ s.lastAck (rx srcIp seg s.conns).2 = s.ackNum := by
    unfold rx
    cases hfind : tcpFindConn s.conns srcIp seg.srcPort seg.dstPort with
    | none =>
      refine ⟨rfl, h.found, lastAck_foreign (fun o ho hm => hnot ?_)⟩
      rcases rxReset_sent ho with ⟨h1, h2, h3⟩
      exact ⟨h1 ▸ hm.1, h2 ▸ hm.2.1, h3 ▸ hm.2.2⟩
    | some k =>
      rcases matches_iff.mp (tcpFindConn_eq_some.mp hfind).1 with ⟨_, h1, h2, h3⟩
      have hk : k ≠ s.conn := by
        intro hk
        rw [hk] at h1 h2 h3
        exact hnot ⟨h1.symm, h2.symm, h3.symm⟩
      refine ⟨update_of_ne (Ne.symm hk) _ _, tcpFindConn_update h.found hk seg,
        lastAck_foreign (fun o ho hm => hnot ?_)⟩
      rcases (rxConn_confined seg (s.conns k)).sent o ho with ⟨e1, e2, e3⟩
      exact ⟨(h1.symm.trans e1.symm).trans hm.1, (h2.symm.trans e2.symm).trans hm.2.1,
        (h3.symm.trans e3.symm).trans hm.2.2⟩
  rcases hkeep with ⟨hhere, hfound, hack⟩
  have ht : (s.onRx srcIp seg).here = s.here := hhere
  have hheld : (s.onRx srcIp seg).held = s.held := by rw [Session.held, ht]; rfl
  refine steady_of_here h ht hfound h.inUse rfl h.head h.tail rfl rfl ?_ ?_ hack ?_ ?_
  · simp only [Session.onRx, hp]; rfl
  · simp only [Session.onRx, hp]; rfl
  · rw [Session.stored, hheld]; rfl
  · rw [ht, hheld]; exact h.reading

/-- A session stays sound when its buffer takes more bytes: a reader's prefix
    of what is held is a prefix of what is held then. -/
theorem Sound.takes {more : List UInt8} (h : Sound s)
    (hconns : t.conns = update s.conns s.conn c ∧ t.conn = s.conn) (hends : SameEnds c s.here)
    (huse : c.inUse = s.here.inUse) (hhead : c.rxHead < TCP_RX_BUF_SIZE)
    (htail : c.rxTail = s.here.rxTail) (hphase : c.state = .established ∨ c.state = .timeWait)
    (hack : t.ackNum = c.sendAck) (hheld : t.held = s.held ++ more)
    (hreader : t.reader = s.reader) : Sound t := by
  have ht : t.here = c := by rw [Session.here, hconns.1, hconns.2, update_self]
  refine ⟨by rw [ht, huse]; exact h.inUse, ?_, ht ▸ hhead, by rw [ht, htail]; exact h.tail,
    ht ▸ hphase, ht ▸ hack, fun r hr => ?_⟩
  · rw [ht, hends.1, hends.2.1, hends.2.2, hconns.1, hconns.2]
    exact tcpFindConn_self h.found hends (huse.trans h.inUse)
  · rcases h.reading r (hreader ▸ hr) with ⟨h1, h2, h3, h4⟩
    rw [ht, htail, hheld, length_append, take_append_of_le_length (by omega)]
    exact ⟨h1, by omega, h3, h4⟩

/-- What a segment of the peer does to an established session, whatever its
    sequence number: the buffer takes as much of the payload as it has room
    for, and all of it is acknowledged. -/
structure Arrived (s t : Session) (seg : Segment) : Prop where
  sound : Sound t
  ends : SameEnds t.here s.here
  state : t.here.state = if hasFlag seg.flags TCP_FIN = true then .timeWait else .established
  sendAck : t.here.sendAck = ackAfter seg s.here.sendAck
  held : t.held = s.held ++ seg.payload.take (TCP_RX_BUF_SIZE - 1 - s.held.length)

theorem rx_arrived (h : Sound s) (hp : s.fromPeer srcIp seg = true)
    (hreset : hasFlag seg.flags TCP_RST = false) (he : s.here.state = .established) :
    Arrived s (s.onRx srcIp seg) seg := by
  have hrx := rx_peer h hp
  have hconn : rxConn seg s.here = rxEstablished seg s.here := by
    rw [rxConn, hreset, he]
    rfl
  rw [hconn] at hrx
  rcases rxEstablished_spec seg s.here h.head h.tail with ⟨buf, head, hc, hhead, hcont⟩
  have ht : (s.onRx srcIp seg).here = (rxEstablished seg s.here).1 := by
    simp only [Session.onRx, Session.here, hrx, update_self]
  have hends := (rxEstablished_served he seg).ends
  have hheld : (s.onRx srcIp seg).held =
      s.held ++ seg.payload.take (TCP_RX_BUF_SIZE - 1 - s.held.length) := by
    rw [Session.held, ht, hc, length_held]
    exact hcont
  have hack : (s.onRx srcIp seg).ackNum = ackAfter seg s.here.sendAck := by
    have hlast := rxEstablished_lastAck s seg h.acked
    simp only [Session.onRx, hrx]
    exact hlast
  have hstate : (rxEstablished seg s.here).1.state =
      if hasFlag seg.flags TCP_FIN = true then .timeWait else .established := by
    rw [hc, he]
  exact {
    sound := by
      refine h.takes ⟨congrArg Prod.fst hrx, rfl⟩ hends (by rw [hc]) (by rw [hc]; exact hhead)
        (by rw [hc]) ?_ (by rw [hc]; exact hack) hheld rfl
      rw [hstate]
      cases hasFlag seg.flags TCP_FIN with
      | true => exact Or.inr rfl
      | false => exact Or.inl rfl
    ends := by rw [ht]; exact hends
    state := by rw [ht]; exact hstate
    sendAck := by rw [ht, hc]
    held := hheld }

/-- Once the peer has closed, its segments change nothing. -/
theorem rx_closed (h : Sound s) (hp : s.fromPeer srcIp seg = true)
    (hreset : hasFlag seg.flags TCP_RST = false) (ht : s.here.state = .timeWait) :
    rx srcIp seg s.conns = (s.conns, []) := by
  have hconn : rxConn seg s.here = (s.here, []) := by
    rw [rxConn, hreset, ht]
    rfl
  rw [rx_peer h hp, hconn]
  simp only [Session.here, update_eq_self]

/-! ### Sending and reading -/

theorem steady_send (h : Sound s) (data : List UInt8) : Steady s (s.onSend data) := by
  -- Sending moves the sequence number only, and repeats the acknowledgement.
  have hsent : ∃ q, (send data s.here).1 = { s.here with sendSeq := q } ∧
      ∀ o ∈ (send data s.here).2, o.ackNum = s.here.sendAck := by
    unfold send
    by_cases hs : s.here.inUse = false ∨ s.here.state ≠ .established
    · rw [if_pos hs]
      exact ⟨s.here.sendSeq, rfl, forall_mem_nil _⟩
    · rw [if_neg hs]
      exact ⟨_, rfl, fun o ho => (tcpSendSegment_ends ho).2.2.2⟩
  rcases hsent with ⟨q, hc, hout⟩
  have hack : s.lastAck (send data s.here).2 = s.ackNum :=
    (lastAck_const h.acked hout).trans h.acked.symm
  have hhere : (s.onSend data).here = { s.here with sendSeq := q } := by
    simp only [Session.here, Session.onSend, update_self]
    exact hc
  have hheld : (s.onSend data).held = s.held := by rw [Session.held, hhere]; rfl
  refine steady_of_here h hhere ?_ h.inUse rfl h.head h.tail rfl rfl rfl rfl hack ?_ ?_
  · simp only [Session.onSend, hc]
    exact tcpFindConn_self h.found (sameEnds_refl _) h.inUse
  · rw [Session.stored, hheld]; rfl
  · rw [hheld, hhere]; exact h.reading

/-- A step of the reader that leaves the connection alone. -/
theorem steady_reader (h : Sound s) (rd : Reader)
    (hread : ∀ r, rd = .copying r → r.tail = s.here.rxTail ∧ r.count ≤ s.held.length ∧
      r.copied.length ≤ r.count ∧ r.copied = s.held.take r.copied.length) :
    Steady s { s with reader := rd } :=
  ⟨⟨h.inUse, h.found, h.head, h.tail, h.phase, h.acked, hread⟩, rfl, rfl, rfl, rfl, rfl, rfl⟩

/-- What `recv` computes as available is what the buffer holds. -/
theorem recvSnapshot_eq (h : Sound s) (hne : s.here.rxHead ≠ s.here.rxTail) (maxLen : Nat) :
    recvSnapshot maxLen s.here =
      some { tail := s.here.rxTail, count := min s.held.length maxLen, copied := [] } := by
  have hh := h.head
  have ht := h.tail
  have hlen : s.held.length =
      if s.here.rxHead > s.here.rxTail then s.here.rxHead - s.here.rxTail
      else u16 (TCP_RX_BUF_SIZE - s.here.rxTail + s.here.rxHead) := by
    rw [length_held, Ring.count_eq hh ht]
    simp only [TCP_RX_BUF_SIZE, u16] at hh ht ⊢
    split_ifs <;> omega
  rw [recvSnapshot, if_neg hne, ← hlen]

theorem steady_snapshot (h : Sound s) (maxLen : Nat) : Steady s (s.onSnapshot maxLen) := by
  unfold Session.onSnapshot
  by_cases he : s.here.rxHead = s.here.rxTail
  · rw [recvSnapshot, if_pos he]
    exact steady_reader h .idle (fun r hr => Reader.noConfusion hr)
  · rw [recvSnapshot_eq h he]
    refine steady_reader h _ (fun r hr => ?_)
    rw [← Reader.copying.inj hr]
    exact ⟨rfl, Nat.min_le_left _ _, Nat.zero_le _, rfl⟩

theorem steady_byte (h : Sound s) {r : Copying} (hr : s.reader = .copying r)
    (hmore : r.copied.length < r.count) :
    Steady s { s with reader := .copying (recvByte r s.here) } := by
  rcases h.reading r hr with ⟨h1, h2, h3, h4⟩
  refine steady_reader h _ (fun q hq => ?_)
  have hcount := length_held s
  have hlt := held_lt h
  have htl := h.tail
  have hindex : u16 (r.tail + r.copied.length) % TCP_RX_BUF_SIZE =
      (s.here.rxTail + r.copied.length) % TCP_RX_BUF_SIZE := by
    simp only [TCP_RX_BUF_SIZE, u16] at hlt htl ⊢
    omega
  have hlen : (recvByte r s.here).copied.length = r.copied.length + 1 := by
    rw [recvByte, length_append, length_singleton]
  rw [← Reader.copying.inj hq, hlen]
  refine ⟨h1, h2, hmore, ?_⟩
  rw [Session.held, Ring.contents_take_succ _ (by omega), recvByte, hindex]
  exact congrArg (· ++ _) h4

theorem steady_finish (h : Sound s) {r : Copying} (hr : s.reader = .copying r)
    (hdone : r.copied.length = r.count) : Steady s (s.onFinish r) := by
  rcases h.reading r hr with ⟨h1, h2, _, h4⟩
  have hlt := held_lt h
  have htl := h.tail
  have hindex : u16 (r.tail + r.count) % TCP_RX_BUF_SIZE =
      (s.here.rxTail + r.count) % TCP_RX_BUF_SIZE := by
    simp only [TCP_RX_BUF_SIZE, u16] at hlt htl ⊢
    omega
  have hheld : (s.onFinish r).held = s.held.drop r.count := by
    simp only [Session.held, Session.here, Session.onFinish, update_self]
    rw [show recvFinish r (s.conns s.conn) = { s.here with
      rxTail := (s.here.rxTail + r.count) % TCP_RX_BUF_SIZE } by rw [← hindex]; rfl]
    exact Ring.contents_drop s.here.rxBuf h.head h.tail (length_held s ▸ h2)
  have hbound : (recvFinish r s.here).rxTail < TCP_RX_BUF_SIZE :=
    Nat.mod_lt _ (by simp only [TCP_RX_BUF_SIZE]; omega)
  refine steady_of_here h (c := recvFinish r s.here) (update_self _ _ _)
    (tcpFindConn_self h.found (sameEnds_refl _) h.inUse) h.inUse rfl h.head hbound rfl rfl rfl rfl
    rfl ?_ (fun q hq => Reader.noConfusion hq)
  -- The bytes dropped from the buffer are the ones returned.
  rw [Session.stored, hheld, show (s.onFinish r).returned = s.returned ++ r.copied from rfl, h4,
    hdone, append_assoc, take_append_drop]
  rfl

/-- An event other than a segment of the peer delivers nothing. -/
theorem steady_or_peer {e : Event} (h : Sound s)
    (ha : (∀ srcIp seg, e ≠ .rx srcIp seg) → Allowed s e) (he : exec s e = some t) :
    Steady s t ∨ ∃ srcIp seg, e = .rx srcIp seg ∧ s.fromPeer srcIp seg = true ∧
      s.onRx srcIp seg = t := by
  cases e with
  | rx srcIp seg =>
    simp only [exec, Option.some.injEq] at he
    cases hp : s.fromPeer srcIp seg with
    | true => exact Or.inr ⟨srcIp, seg, rfl, hp, he⟩
    | false => exact Or.inl (he ▸ steady_rx_other h hp)
  | send data =>
    simp only [exec, Option.some.injEq] at he
    exact Or.inl (he ▸ steady_send h data)
  | recvStart maxLen =>
    simp only [exec, h.inUse, if_true, Option.some.injEq] at he
    exact Or.inl (he ▸ steady_reader h _ (fun r hr => Reader.noConfusion hr))
  | recvTimeout =>
    simp only [exec, Option.some.injEq] at he
    exact Or.inl (he ▸ steady_reader h _ (fun r hr => Reader.noConfusion hr))
  | recvSnapshot =>
    rcases ha (fun _ _ hne => Event.noConfusion hne) with ⟨n, hn⟩
    simp only [exec, hn, Option.some.injEq] at he
    exact Or.inl (he ▸ steady_snapshot h n)
  | recvByte =>
    rcases ha (fun _ _ hne => Event.noConfusion hne) with ⟨r, hr, hmore⟩
    simp only [exec, hr, Option.some.injEq] at he
    exact Or.inl (he ▸ steady_byte h hr hmore)
  | recvFinish =>
    rcases ha (fun _ _ hne => Event.noConfusion hne) with ⟨r, hr, hdone⟩
    simp only [exec, hr, Option.some.injEq] at he
    exact Or.inl (he ▸ steady_finish h hr hdone)

/-! ### The invariant -/

/-- While every segment fits: the stream is what was returned and what is
    held, and all of it is acknowledged. -/
structure Inv (s : Session) : Prop where
  sound : Sound s
  phase : s.here.state = .established ∧ s.finSent = false ∨
    s.here.state = .timeWait ∧ s.finSent = true
  kept : s.stream = s.returned ++ s.held
  sendAck : s.here.sendAck = u32 (s.isn + s.seqLen)

theorem inv_of_steady (h : Inv s) (hst : Steady s t) : Inv t := by
  refine ⟨hst.sound, ?_, ?_, ?_⟩
  · rw [hst.state, hst.finSent]
    exact h.phase
  · rw [hst.stream]
    exact h.kept.trans hst.stored.symm
  · rw [hst.sendAck, hst.isn, Session.seqLen, hst.stream, hst.finSent]
    exact h.sendAck

/-- A fully acknowledged stream is covered. -/
theorem covered_of_ackNum (h : s.ackNum = u32 (s.isn + s.seqLen)) : s.covered = s.stream := by
  have hzero : wrappingSub32 (s.isn + s.seqLen) s.ackNum = 0 := by
    rw [h]
    simp only [wrappingSub32, u32]
    omega
  unfold Session.covered
  rw [hzero]
  exact take_of_length_le (by simp only [Session.seqLen]; omega)

theorem ackedKept_of_inv (h : Inv s) : AckedKept s :=
  (covered_of_ackNum (h.sound.acked.trans h.sendAck)).trans h.kept

theorem inv_start (h : Fresh s) : Inv s := by
  rcases h.history with ⟨hstream, hret, hfin⟩
  have hlen : s.seqLen = 0 := by
    rw [Session.seqLen, hstream, hfin]
    rfl
  refine ⟨sound_start h, Or.inl ⟨h.state, hfin⟩, ?_, ?_⟩
  · rw [hstream, hret, held_start h]
    rfl
  · rw [hlen]
    exact h.sendAck

/-- What the next segment of the peer does to an established session: the
    stream grows by the payload and is acknowledged to its end, while the
    buffer takes what it has room for. -/
structure Delivered (s t : Session) (seg : Segment) : Prop where
  arrived : Arrived s t seg
  phase : t.here.state = .established ∧ t.finSent = false ∨
    t.here.state = .timeWait ∧ t.finSent = true
  stream : t.stream = s.stream ++ seg.payload
  sendAck : t.here.sendAck = u32 (t.isn + t.seqLen)

theorem ackAfter_eq (h : Inv s) (ho : InOrder s seg) (hfin : s.finSent = false) :
    ackAfter seg s.here.sendAck =
      u32 (s.isn + (s.stream.length + seg.payload.length +
        (hasFlag seg.flags TCP_FIN).toNat)) := by
  have hack := h.sendAck
  simp only [Session.seqLen, hfin, Bool.toNat_false, Nat.add_zero] at hack
  unfold ackAfter
  by_cases hf : hasFlag seg.flags TCP_FIN = true
  · rw [if_pos hf, (ho.next (Or.inr hf)).2, hf]
    simp only [u32, Bool.toNat_true]
    omega
  · rw [if_neg hf]
    rw [Bool.not_eq_true] at hf
    by_cases hp : seg.payload.length > 0
    · rw [if_pos hp, (ho.next (Or.inl (ne_nil_of_length_pos hp))).2, hf]
      simp only [u32, Bool.toNat_false]
      omega
    · rw [if_neg hp, hack, hf]
      simp only [Bool.toNat_false]
      congr 1
      omega

/-- The peer of an established session has not closed. -/
theorem finSent_of_established (h : Inv s) (he : s.here.state = .established) :
    s.finSent = false := by
  rcases h.phase with ⟨_, hf⟩ | ⟨hs, _⟩
  · exact hf
  · rw [he] at hs
    exact TcpState.noConfusion hs

theorem rx_delivered (h : Inv s) (hp : s.fromPeer srcIp seg = true) (ho : InOrder s seg)
    (he : s.here.state = .established) : Delivered s (s.onRx srcIp seg) seg := by
  have hfin := finSent_of_established h he
  have ha := rx_arrived h.sound hp ho.noReset he
  have hstream : (s.onRx srcIp seg).stream = s.stream ++ seg.payload := by
    simp only [Session.onRx, hp, if_true]
  have hfin' : (s.onRx srcIp seg).finSent = hasFlag seg.flags TCP_FIN := by
    simp only [Session.onRx, hp, if_true, hfin, Bool.false_or]
  refine ⟨ha, ?_, hstream, ?_⟩
  · rw [ha.state, hfin']
    cases hasFlag seg.flags TCP_FIN with
    | true => exact Or.inr ⟨rfl, rfl⟩
    | false => exact Or.inl ⟨rfl, rfl⟩
  · rw [ha.sendAck, ackAfter_eq h ho hfin, Session.seqLen, hstream, hfin', length_append]
    rfl

/-- A segment of the peer that fits keeps the invariant. -/
theorem inv_rx_peer (h : Inv s) (hp : s.fromPeer srcIp seg = true) (ho : InOrder s seg)
    (hfits : Fits s (.rx srcIp seg)) : Inv (s.onRx srcIp seg) := by
  rcases h.phase with ⟨hstate, hfin⟩ | ⟨hstate, hfin⟩
  · have hd := rx_delivered h hp ho hstate
    have hroom := hfits hp hstate
    refine ⟨hd.arrived.sound, hd.phase, ?_, hd.sendAck⟩
    rw [hd.stream, hd.arrived.held, take_of_length_le (by omega), h.kept,
      append_assoc]
    rfl
  · -- The peer has closed: it has nothing more to deliver.
    have hempty : seg.payload = [] ∧ hasFlag seg.flags TCP_FIN = false := by
      constructor
      · by_contra hne
        rw [(ho.next (Or.inl hne)).1] at hfin
        exact absurd hfin Bool.false_ne_true
      · rw [← Bool.not_eq_true]
        intro hf
        rw [(ho.next (Or.inr hf)).1] at hfin
        exact absurd hfin Bool.false_ne_true
    have hsame : s.onRx srcIp seg = s := by
      simp only [Session.onRx, rx_closed h.sound hp ho.noReset hstate, hp, if_true, hempty.1,
        hempty.2, append_nil, Bool.or_false, Session.lastAck, foldl_nil]
    rw [hsame]
    exact h

/-- A segment that does not fit breaks what was promised: all of it is
    acknowledged, but its last byte is lost. -/
theorem rx_overflow (h : Inv s) (hp : s.fromPeer srcIp seg = true) (ho : InOrder s seg)
    (hover : ¬ Fits s (.rx srcIp seg)) : ¬ AckedKept (s.onRx srcIp seg) := by
  simp only [Fits, Classical.not_imp] at hover
  rcases hover with ⟨_, hstate, hroom⟩
  have hd := rx_delivered h hp ho hstate
  intro hkept
  have hack := hd.arrived.sound.acked.trans hd.sendAck
  have hlen := congrArg List.length ((covered_of_ackNum hack).symm.trans hkept)
  have hreturned : (s.onRx srcIp seg).returned = s.returned := rfl
  rw [hd.stream, hd.arrived.held, hreturned, h.kept] at hlen
  simp only [length_append, length_take] at hlen
  have hcount := held_lt h.sound
  omega

/-! ### Whole runs -/

/-- One event keeps the invariant, if its payload fits. -/
theorem inv_step {e : Event} (h : Inv s) (ha : Allowed s e) (hf : Fits s e)
    (he : exec s e = some t) : Inv t := by
  rcases steady_or_peer h.sound (fun _ => ha) he with hst | ⟨srcIp, seg, rfl, hp, rfl⟩
  · exact inv_of_steady h hst
  · exact inv_rx_peer h hp (ha hp) hf

theorem inv_reachable (hs : (sessions.restrict Fits).Reachable s) : Inv s := by
  refine Machine.Reachable.invariant Inv (fun _ h => inv_start h) ?_ hs
  rintro s t e h ⟨ha, hf⟩ he
  exact inv_step h ha hf he

/-- In every run all of whose segments fit in the receive buffer, the bytes
    acknowledged are the ones returned and the ones held; and the first
    segment that does not fit ends this. -/
theorem acked_kept_iff {s : Session} (hs : (sessions.restrict Fits).Reachable s) :
    AckedKept s ∧ ∀ e t, sessions.allows s e → sessions.exec s e = some t →
      (AckedKept t ↔ Fits s e) := by
  have h := inv_reachable hs
  refine ⟨ackedKept_of_inv h, fun e t ha he => ⟨fun hkept => ?_, fun hf => ?_⟩⟩
  · by_contra hover
    cases e with
    | rx srcIp seg =>
      have hp : s.fromPeer srcIp seg = true := by
        by_contra hp
        exact hover (fun h' => absurd h' hp)
      have ht : s.onRx srcIp seg = t := Option.some.inj he
      exact rx_overflow h hp (ha hp) hover (ht ▸ hkept)
    | send | recvStart | recvTimeout | recvSnapshot | recvByte | recvFinish => exact hover trivial
  · exact ackedKept_of_inv (inv_step h ha hf he)

/-! ### The ring as a queue -/

inductive RingEvent where
  | append (b : UInt8)
  | reader (e : Event)

/-- One turn of the copy loop of `rx`. The history takes the byte unless 4095
    bytes are pending. -/
def Session.onAppend (s : Session) (b : UInt8) : Session :=
  { s with
    conns := update s.conns s.conn (pushBytes [b] s.here)
    stream := if s.stream.length - s.returned.length < TCP_RX_BUF_SIZE - 1 then s.stream ++ [b]
      else s.stream }

/-- Bytes arrive one by one, between any two steps of the reader. Only the
    reader writes `rx_tail`, so that reading both indices at once is reading
    `rx_head`. -/
def ring : Machine Session RingEvent where
  start := Fresh
  allows
    | _, .append _ => True
    | s, .reader e => (∀ srcIp seg, e ≠ .rx srcIp seg) ∧ Allowed s e
  exec
    | s, .append b => some (s.onAppend b)
    | s, .reader e => exec s e

/-- A byte is added behind the ones held, unless the ring is full. -/
theorem append_spec (h : Sound s) (b : UInt8) : Sound (s.onAppend b) ∧
    (s.onAppend b).held =
      s.held ++ if s.held.length < TCP_RX_BUF_SIZE - 1 then [b] else [] := by
  rcases pushBytes_spec [b] s.here h.head h.tail with ⟨buf, head, hc, hhead, hcont⟩
  have hheld : (s.onAppend b).held =
      s.held ++ [b].take (TCP_RX_BUF_SIZE - 1 - s.held.length) := by
    have hhere : (s.onAppend b).here = pushBytes [b] s.here := update_self _ _ _
    rw [length_held, Session.held, hhere, hc]
    exact hcont
  refine ⟨h.takes ⟨rfl, rfl⟩ (pushBytes_keeps [b] s.here).1 (by rw [hc]) (by rw [hc]; exact hhead)
    (by rw [hc]) (by rw [hc]; exact h.phase) (by rw [hc]; exact h.acked) hheld rfl, ?_⟩
  rw [hheld]
  split_ifs with hroom
  · rw [take_of_length_le (by rw [length_singleton]; omega)]
  · rw [show TCP_RX_BUF_SIZE - 1 - s.held.length = 0 by omega, take_zero]

theorem ring_invariant (hs : ring.Reachable s) : Sound s ∧ s.stream = s.stored := by
  refine Machine.Reachable.invariant (fun s => Sound s ∧ s.stream = s.stored) (fun s h => ?_) ?_ hs
  · exact ⟨sound_start h, (inv_start h).kept⟩
  rintro s t (b | e) ⟨h, hkept⟩ ha he
  · -- As many bytes are pending as are held.
    rw [← Option.some.inj he]
    have hheld := append_spec h b
    have hpending : s.stream.length - s.returned.length = s.held.length := by
      rw [hkept, Session.stored, length_append, Nat.add_sub_cancel_left]
    refine ⟨hheld.1, ?_⟩
    rw [Session.stored, hheld.2, Session.onAppend, hpending, hkept, Session.stored]
    split_ifs
    · rw [append_assoc]
    · rw [append_nil]
  · rcases steady_or_peer h (fun _ => ha.2) he with hst | ⟨srcIp, seg, hrx, _⟩
    · exact ⟨hst.sound, by rw [hst.stream, hst.stored, hkept]⟩
    · exact absurd hrx (ha.1 srcIp seg)

/-- In every interleaving the ring is a bounded queue: its indices are in
    range, the bytes accepted are the ones returned, in order, followed by the
    ones held, and an append leaves the latter in place. -/
theorem ring_fifo {s : Session} (hs : ring.Reachable s) :
    s.here.rxHead < TCP_RX_BUF_SIZE ∧ s.here.rxTail < TCP_RX_BUF_SIZE ∧
      s.stream = s.returned ++ s.held ∧
      ∀ b, (s.onAppend b).held =
        s.held ++ if s.held.length < TCP_RX_BUF_SIZE - 1 then [b] else [] := by
  have h := ring_invariant hs
  exact ⟨h.1.head, h.1.tail, h.2, fun b => (append_spec h.1 b).2⟩

/-! ### A full window -/

/-- A connection from port 49152 to port 80 of the gateway, in slot 0. -/
def exampleConn : TcpConn :=
  { TcpConn.new with
    inUse := true
    state := .established
    remoteIp := 0x0A000202
    remotePort := 80
    localPort := 49152
    sendAck := 1001
    connected := true }

/-- The session of that connection right after the handshake. -/
def exampleSession : Session where
  conns := Function.update (fun _ => TcpConn.new) ⟨0, by decide⟩ exampleConn
  conn := ⟨0, by decide⟩
  isn := 1001
  stream := []
  finSent := false
  returned := []
  ackNum := 1001
  reader := .idle

/-- A data segment of the gateway with `len` bytes, `offset` bytes into its
    stream. -/
def dataSegment (offset len : Nat) : Segment where
  srcPort := 80
  dstPort := 49152
  seq := 1001 + offset
  ack := 0
  flags := TCP_ACK
  payload := List.replicate len 0x41

theorem exampleSession_fresh : Fresh exampleSession where
  inUse := rfl
  state := rfl
  found := tcpFindConn_eq_some.mpr ⟨rfl, fun j hj => absurd hj (Nat.not_lt_zero _)⟩
  empty := rfl
  bound := by decide
  sendAck := rfl
  ackNum := rfl
  history := ⟨rfl, rfl, rfl⟩
  reader := rfl

/-- Two bytes arrive and `recv` begins to copy them; a third one arrives while
    only the first has been copied. -/
theorem ring_fifo_copying :
    ∃ s r, ring.Reachable s ∧ s.reader = .copying r ∧ r.count = 2 ∧ r.copied = [0x41] ∧
      s.stream = [0x41, 0x42, 0x43] ∧ s.stream = s.returned ++ s.held := by
  have hread : ∀ {s t : Session} (e : Event), ring.Reachable s → (∀ srcIp seg, e ≠ .rx srcIp seg) →
      Allowed s e → exec s e = some t → ring.Reachable t :=
    fun e hs hne ha he => .step _ _ (.reader e) hs ⟨hne, ha⟩ he
  have h2 : ring.Reachable ((exampleSession.onAppend 0x41).onAppend 0x42) :=
    .step _ _ (.append 0x42) (.step _ _ (.append 0x41) (.start _ exampleSession_fresh)
      trivial rfl) trivial rfl
  have h3 := hread (.recvStart 16) h2 (fun _ _ => Event.noConfusion) rfl rfl
  have h4 := hread .recvSnapshot h3 (fun _ _ => Event.noConfusion) ⟨16, rfl⟩ rfl
  have h5 := hread .recvByte h4 (fun _ _ => Event.noConfusion) ⟨_, rfl, by decide⟩ rfl
  have h6 : ring.Reachable (Session.onAppend _ 0x43) := .step _ _ (.append 0x43) h5 trivial rfl
  exact ⟨_, _, h6, rfl, rfl, rfl, rfl, (ring_fifo h6).2.2.1⟩

/-- The gateway has delivered `n` bytes and nothing has been read yet. -/
structure Streaming (s : Session) (n : Nat) : Prop where
  inv : Inv s
  state : s.here.state = .established
  ends : SameEnds s.here exampleConn
  isn : s.isn = 1001
  returned : s.returned = []
  length : s.stream.length = n

theorem streaming_allowed (h : Streaming s n) (hk : n + k ≤ TCP_WINDOW) :
    Allowed s (.rx 0x0A000202 (dataSegment n k)) := by
  have hfin := finSent_of_established h.inv h.state
  intro _
  have hflag : hasFlag TCP_ACK TCP_RST = false := by decide
  refine ⟨hflag, fun _ => ⟨hfin, ?_⟩, ?_⟩
  · rw [h.isn, h.length]
    simp only [dataSegment, u32, TCP_WINDOW] at hk ⊢
    omega
  · rw [h.length, h.returned]
    simp only [dataSegment, length_replicate, length_nil]
    omega

theorem streaming_fromPeer (h : Streaming s n) (k : Nat) :
    s.fromPeer 0x0A000202 (dataSegment n k) = true :=
  (fromPeer_iff _ _ _).mpr ⟨h.ends.1.symm, h.ends.2.1.symm, h.ends.2.2.symm⟩

theorem streaming_held (h : Streaming s n) : s.held.length = n := by
  have hk := congrArg List.length h.inv.kept
  rw [h.returned, h.length, nil_append] at hk
  exact hk.symm

theorem streaming_fits_iff (h : Streaming s n) (k : Nat) :
    Fits s (.rx 0x0A000202 (dataSegment n k)) ↔ n + k < TCP_RX_BUF_SIZE := by
  have hlen : (dataSegment n k).payload.length = k := length_replicate
  simp only [Fits, streaming_fromPeer h k, h.state, forall_const, streaming_held h, hlen]

theorem streaming_rx (h : Streaming s n) (hk : n + k < TCP_RX_BUF_SIZE) :
    Streaming (s.onRx 0x0A000202 (dataSegment n k)) (n + k) := by
  have hp := streaming_fromPeer h k
  have ho := streaming_allowed h (Nat.le_of_lt hk) hp
  have hd := rx_delivered h.inv hp ho h.state
  have hends := hd.arrived.ends
  have hflag : hasFlag TCP_ACK TCP_FIN = false := by decide
  refine ⟨inv_rx_peer h.inv hp ho ((streaming_fits_iff h k).mpr hk), ?_, ?_, h.isn, h.returned, ?_⟩
  · rw [hd.arrived.state]
    simp only [dataSegment, hflag, Bool.false_eq_true, if_false]
  · exact ⟨hends.1.trans h.ends.1, hends.2.1.trans h.ends.2.1, hends.2.2.trans h.ends.2.2⟩
  · rw [hd.stream, length_append, h.length]
    simp only [dataSegment, length_replicate]

theorem streaming_start : Streaming exampleSession 0 :=
  ⟨inv_start exampleSession_fresh, rfl, sameEnds_refl _, rfl, rfl, rfl⟩

/-- Two full segments of 1460 bytes, not read yet. -/
def twoSegments : Session :=
  (exampleSession.onRx 0x0A000202 (dataSegment 0 1460)).onRx 0x0A000202 (dataSegment 1460 1460)

theorem streaming_twoSegments : Streaming twoSegments 2920 := by
  have h1 : Streaming _ (0 + 1460) := streaming_rx streaming_start (by decide)
  exact streaming_rx h1 (by decide)

theorem streaming_reachable (h : Streaming s n) (hr : (sessions.restrict Fits).Reachable s)
    (hk : n + k < TCP_RX_BUF_SIZE) :
    (sessions.restrict Fits).Reachable (s.onRx 0x0A000202 (dataSegment n k)) :=
  Machine.Reachable.step s _ (.rx 0x0A000202 (dataSegment n k)) hr
    ⟨streaming_allowed h (Nat.le_of_lt hk), (streaming_fits_iff h k).mpr hk⟩ rfl

theorem reachable_twoSegments : (sessions.restrict Fits).Reachable twoSegments := by
  have hk : 0 + 1460 < TCP_RX_BUF_SIZE := by decide
  have hk' : 0 + 1460 + 1460 < TCP_RX_BUF_SIZE := by decide
  exact streaming_reachable (streaming_rx streaming_start hk) (streaming_reachable streaming_start
    (Machine.Reachable.start exampleSession exampleSession_fresh) hk) hk'

/-- With 2920 bytes in the buffer, a segment of 1175 bytes is kept and one of
    1176 bytes, which exactly fills the window, is not. -/
theorem acked_kept_iff_twoSegments :
    (sessions.restrict Fits).Reachable twoSegments ∧ AckedKept twoSegments ∧
      AckedKept (twoSegments.onRx 0x0A000202 (dataSegment 2920 1175)) := by
  have h := acked_kept_iff reachable_twoSegments
  refine ⟨reachable_twoSegments, h.1,
    (h.2 (.rx 0x0A000202 (dataSegment 2920 1175)) _ ?_ rfl).mpr ?_⟩
  · exact streaming_allowed streaming_twoSegments (by decide)
  · exact (streaming_fits_iff streaming_twoSegments 1175).mpr (by decide)

/-- A peer that fills the window with three segments of 1460, 1460 and 1176
    bytes loses the last byte: it is acknowledged, but the buffer holds only
    4095 bytes and nothing has been returned. -/
theorem acked_lost_full_window :
    sessions.Reachable (twoSegments.onRx 0x0A000202 (dataSegment 2920 1176)) ∧
      ¬ AckedKept (twoSegments.onRx 0x0A000202 (dataSegment 2920 1176)) := by
  have hs := streaming_twoSegments
  have ha : Allowed twoSegments (.rx 0x0A000202 (dataSegment 2920 1176)) :=
    streaming_allowed hs (by decide)
  have hp := streaming_fromPeer hs 1176
  refine ⟨Machine.Reachable.step twoSegments _ (.rx 0x0A000202 (dataSegment 2920 1176))
    reachable_twoSegments.of_restrict ha rfl, ?_⟩
  refine rx_overflow hs.inv hp (ha hp) (fun hf => ?_)
  have hlt := (streaming_fits_iff hs 1176).mp hf
  simp only [TCP_RX_BUF_SIZE] at hlt
  omega

end SysRust.Tcp
