import Mathlib.Data.Fin.Tuple.Basic
import SysRust.Lib.Ring
import SysRust.Lib.Word

/-!
# TCP

The client-side TCP of `tcp.rs`: four connections, each with a 4096-byte
circular receive buffer that the interrupt side fills in `rx` and the user
side empties in `recv`.

`rx` is given a segment that has been taken apart; `Core.Net.Rx` is where
the bytes of a frame become one. Segments handed to `ipv4::send` are
returned as a list, in order, with the fields `tcp_send_segment` writes.

`recv` runs in user context and can be interrupted between any two of its
accesses to the connection, so it is given as the steps it takes: read the
two indices, copy one byte, and at the end write `rx_tail`. `connect` and
`close` are given as the step they begin with and the steps of their wait
loops, each of which looks at the connection and the timer once.

## Main definitions

* `TcpConn`, `TcpState`: A connection.
* `Segment`: An incoming segment.
* `SentSegment`, `tcpSendSegment`: An outgoing segment.
* `pushBytes`: The copy loop of the receive path.
* `rxEstablished`, `rxConn`, `rx`: Handling an incoming segment.
* `Plain`, `rxPlain`: Its additions that are not wrapping ones.
* `send`: Sending data on an established connection.
* `Copying`, `recvSnapshot`, `recvByte`, `recvFinish`: The steps of `recv`.
* `tcpAllocConn`, `connectStart`, `connectPoll`: The steps of `connect`.
* `closeStart`, `closePoll`: The steps of `close`.
-/

namespace SysRust.Tcp

def TCP_FIN : BitVec 8 := 0x01
def TCP_SYN : BitVec 8 := 0x02
def TCP_RST : BitVec 8 := 0x04
def TCP_PSH : BitVec 8 := 0x08
def TCP_ACK : BitVec 8 := 0x10

def TCP_MAX_CONNS : Nat := 4
theorem zero_lt_conns : 0 < TCP_MAX_CONNS := by decide

theorem one_lt_conns : 1 < TCP_MAX_CONNS := by decide

def TCP_RX_BUF_SIZE : Nat := 4096
def TCP_WINDOW : Nat := 4096

/-- The connection states; the client never listens. -/
inductive TcpState where
  | closed
  | synSent
  | established
  | finWait1
  | finWait2
  | timeWait
deriving DecidableEq, Repr

structure TcpConn where
  inUse : Bool
  state : TcpState
  remoteIp : Nat
  remotePort : Nat
  localPort : Nat
  sendSeq : Nat
  sendAck : Nat
  rxBuf : Nat → UInt8
  rxHead : Nat
  rxTail : Nat
  finReceived : Bool
  connected : Bool

/-- A fresh connection. -/
def TcpConn.new : TcpConn where
  inUse := false
  state := .closed
  remoteIp := 0
  remotePort := 0
  localPort := 0
  sendSeq := 0
  sendAck := 0
  rxBuf := fun _ => 0
  rxHead := 0
  rxTail := 0
  finReceived := false
  connected := false

/-- The connection table. -/
abbrev Conns := Fin TCP_MAX_CONNS → TcpConn

/-- An incoming segment. -/
structure Segment where
  srcPort : Nat
  dstPort : Nat
  seq : Nat
  ack : Nat
  flags : BitVec 8
  payload : List UInt8

/-- A segment handed to `ipv4::send`. -/
structure SentSegment where
  remoteIp : Nat
  srcPort : Nat
  dstPort : Nat
  seqNum : Nat
  ackNum : Nat
  flags : BitVec 8
  window : Nat
  data : List UInt8

/-- Whether a flag is set. -/
def hasFlag (flags f : BitVec 8) : Bool := flags &&& f != 0

/-- Build a segment from the connection's fields. One that does not fit in a
    packet is dropped. -/
def tcpSendSegment (c : TcpConn) (flags : BitVec 8) (data : List UInt8) : List SentSegment :=
  if u16 (20 + data.length) > 1480 then []
  else
    [{ remoteIp := c.remoteIp
       srcPort := c.localPort
       dstPort := c.remotePort
       seqNum := c.sendSeq
       ackNum := c.sendAck
       flags := flags
       window := TCP_WINDOW
       data := data }]

/-- The connection is the one between these endpoints. -/
def TcpConn.matches (c : TcpConn) (remoteIp remotePort localPort : Nat) : Bool :=
  c.inUse && c.remoteIp == remoteIp && c.remotePort == remotePort && c.localPort == localPort

/-- The first connection between these endpoints. -/
def tcpFindConn (conns : Conns) (remoteIp remotePort localPort : Nat) :
    Option (Fin TCP_MAX_CONNS) :=
  Fin.find? (fun i => (conns i).matches remoteIp remotePort localPort)

/-- Copy bytes into the receive buffer until it is full; what does not fit
    is dropped. -/
def pushBytes : List UInt8 → TcpConn → TcpConn
  | [], c => c
  | b :: bs, c =>
    let next := u16 (c.rxHead + 1) % TCP_RX_BUF_SIZE
    if next = c.rxTail then c
    else pushBytes bs { c with rxBuf := Function.update c.rxBuf c.rxHead b, rxHead := next }

/-- Store the payload and acknowledge all of it. -/
def rxPayload (seg : Segment) (c : TcpConn) : TcpConn × List SentSegment :=
  if seg.payload.length > 0 then
    let c1 := { pushBytes seg.payload c with sendAck := u32 (seg.seq + seg.payload.length) }
    (c1, tcpSendSegment c1 TCP_ACK [])
  else (c, [])

/-- Data and then a FIN, in state `established`. -/
def rxEstablished (seg : Segment) (c : TcpConn) : TcpConn × List SentSegment :=
  let r := rxPayload seg c
  if hasFlag seg.flags TCP_FIN then
    let c2 := { r.1 with sendAck := u32 (u32 (seg.seq + seg.payload.length) + 1) }
    ({ c2 with finReceived := true, state := .timeWait }, r.2 ++ tcpSendSegment c2 TCP_ACK [])
  else r

/-- The answer to the SYN, in state `synSent`. -/
def rxSynSent (seg : Segment) (c : TcpConn) : TcpConn × List SentSegment :=
  if hasFlag seg.flags TCP_SYN && hasFlag seg.flags TCP_ACK then
    if seg.ack ≠ u32 (c.sendSeq + 1) then (c, [])
    else
      let c1 := { c with sendSeq := seg.ack, sendAck := u32 (seg.seq + 1) }
      ({ c1 with state := .established, connected := true }, tcpSendSegment c1 TCP_ACK [])
  else (c, [])

def rxFinWait1 (seg : Segment) (c : TcpConn) : TcpConn × List SentSegment :=
  if hasFlag seg.flags TCP_ACK then
    if hasFlag seg.flags TCP_FIN then
      let c1 := { c with sendAck := u32 (seg.seq + 1) }
      ({ c1 with state := .timeWait }, tcpSendSegment c1 TCP_ACK [])
    else ({ c with state := .finWait2 }, [])
  else (c, [])

def rxFinWait2 (seg : Segment) (c : TcpConn) : TcpConn × List SentSegment :=
  if hasFlag seg.flags TCP_FIN then
    let c1 := { c with sendAck := u32 (seg.seq + 1) }
    ({ c1 with state := .timeWait, finReceived := true }, tcpSendSegment c1 TCP_ACK [])
  else (c, [])

/-- What a segment does to the connection it is for. -/
def rxConn (seg : Segment) (c : TcpConn) : TcpConn × List SentSegment :=
  if hasFlag seg.flags TCP_RST then
    ({ c with state := .closed, inUse := false, connected := false, finReceived := true }, [])
  else
    match c.state with
    | .synSent => rxSynSent seg c
    | .established => rxEstablished seg c
    | .finWait1 => rxFinWait1 seg c
    | .finWait2 => rxFinWait2 seg c
    | .timeWait => (c, [])
    | .closed => (c, [])

/-- The acknowledgement of a reset for a segment that carries none: it covers
    the payload and the SYN and FIN flags. -/
def resetAck (seg : Segment) : Nat :=
  let a := u32 (seg.seq + seg.payload.length)
  let a := if hasFlag seg.flags TCP_SYN then u32 (a + 1) else a
  if hasFlag seg.flags TCP_FIN then u32 (a + 1) else a

/-- The reset sent for a segment that no connection expects. -/
def rxReset (srcIp : Nat) (seg : Segment) : List SentSegment :=
  if hasFlag seg.flags TCP_RST then []
  else
    let tmp := { TcpConn.new with
      remoteIp := srcIp, remotePort := seg.srcPort, localPort := seg.dstPort }
    if hasFlag seg.flags TCP_ACK then
      tcpSendSegment { tmp with sendSeq := seg.ack, sendAck := 0 } TCP_RST []
    else tcpSendSegment { tmp with sendSeq := 0, sendAck := resetAck seg } (TCP_RST ||| TCP_ACK) []

/-- Handle an incoming segment whose checksum and header have been checked. -/
def rx (srcIp : Nat) (seg : Segment) (conns : Conns) : Conns × List SentSegment :=
  match tcpFindConn conns srcIp seg.srcPort seg.dstPort with
  | none => (conns, rxReset srcIp seg)
  | some i => (Function.update conns i (rxConn seg (conns i)).1, (rxConn seg (conns i)).2)

/-- An operation that is not written as a wrapping one: the exact value of a
    sum or product and the width of its type, or the two sides of a
    difference. -/
inductive Plain where
  | up (value bits : Nat)
  | down (left right : Nat)

/-- The operation does not overflow. -/
def Plain.Fits : Plain → Bool
  | .up value bits => value < 2 ^ bits
  | .down left right => right ≤ left

/-- The additions of the copy loop. -/
def pushPlain : List UInt8 → TcpConn → List Plain
  | [], _ => []
  | b :: bs, c =>
    let next := u16 (c.rxHead + 1) % TCP_RX_BUF_SIZE
    .up (c.rxHead + 1) 16 :: if next = c.rxTail then []
      else pushPlain bs { c with rxBuf := Function.update c.rxBuf c.rxHead b, rxHead := next }

/-- The plain operations for the connection that a segment is for. -/
def rxConnPlain (seg : Segment) (c : TcpConn) : List Plain :=
  if hasFlag seg.flags TCP_RST then []
  else
    match c.state with
    | .synSent =>
      if hasFlag seg.flags TCP_SYN && hasFlag seg.flags TCP_ACK then
        if seg.ack ≠ u32 (c.sendSeq + 1) then [] else [.up (seg.seq + 1) 32]
      else []
    | .established => pushPlain seg.payload c
    | .finWait1 =>
      if hasFlag seg.flags TCP_ACK then
        if hasFlag seg.flags TCP_FIN then [.up (seg.seq + 1) 32] else []
      else []
    | .finWait2 => if hasFlag seg.flags TCP_FIN then [.up (seg.seq + 1) 32] else []
    | .timeWait | .closed => []

/-- The plain operations of `rx`, from the header length on. -/
def rxPlain (srcIp dataOffset length : Nat) (seg : Segment) (conns : Conns) : List Plain :=
  let hdrLen := (dataOffset >>> 4) * 4
  .up hdrLen 8 :: if hdrLen < 20 ∨ hdrLen > length then []
    else .down length hdrLen ::
      match tcpFindConn conns srcIp seg.srcPort seg.dstPort with
      | none =>
        if hasFlag seg.flags TCP_RST then []
        else if hasFlag seg.flags TCP_ACK then [] else [.up (seg.seq + seg.payload.length) 32]
      | some i => rxConnPlain seg (conns i)

/-- Send data; the connection must be established. -/
def send (data : List UInt8) (c : TcpConn) : TcpConn × List SentSegment :=
  if c.inUse = false ∨ c.state ≠ .established then (c, [])
  else
    ({ c with sendSeq := u32 (c.sendSeq + data.length) },
      tcpSendSegment c (TCP_ACK ||| TCP_PSH) data)

/-- A `recv` that has read the indices and is copying. -/
structure Copying where
  tail : Nat
  count : Nat
  copied : List UInt8

/-- Read the indices and decide how many bytes to copy. There is nothing to
    copy when the buffer is empty. -/
def recvSnapshot (maxLen : Nat) (c : TcpConn) : Option Copying :=
  if c.rxHead = c.rxTail then none
  else
    let avail := if c.rxHead > c.rxTail then c.rxHead - c.rxTail
      else u16 (TCP_RX_BUF_SIZE - c.rxTail + c.rxHead)
    some { tail := c.rxTail, count := min avail maxLen, copied := [] }

/-- Copy the next byte. -/
def recvByte (r : Copying) (c : TcpConn) : Copying :=
  { r with copied := r.copied ++ [c.rxBuf (u16 (r.tail + r.copied.length) % TCP_RX_BUF_SIZE)] }

/-- Give the copied bytes back to the buffer's writer. -/
def recvFinish (r : Copying) (c : TcpConn) : TcpConn :=
  { c with rxTail := u16 (r.tail + r.count) % TCP_RX_BUF_SIZE }

/-- `CONNS` and `NEXT_LOCAL_PORT`. -/
structure Stack where
  conns : Conns
  nextLocalPort : Nat

/-- The state after `init`. -/
def Stack.init : Stack where
  conns := fun _ => TcpConn.new
  nextLocalPort := 49152

/-- The first free connection. -/
def tcpAllocConn (conns : Conns) : Option (Fin TCP_MAX_CONNS) :=
  Fin.find? (fun i => !(conns i).inUse)

/-- Ephemeral ports go up and start again at 49152. -/
def bumpPort (port : Nat) : Nat :=
  if u16 (port + 1) = 0 then 49152 else u16 (port + 1)

/-- The connection a `connect` begins with. -/
def synConn (remoteIp remotePort localPort ticks : Nat) : TcpConn :=
  { TcpConn.new with
    inUse := true
    state := .synSent
    remoteIp := remoteIp
    remotePort := remotePort
    localPort := localPort
    sendSeq := u32 (u32 (ticks * 12345) + 1) }

/-- A `connect` in its wait loop: its slot, the attempts that are over, and
    when the SYN was last sent. -/
structure Waiting where
  slot : Fin TCP_MAX_CONNS
  attempt : Nat
  start : Nat
deriving DecidableEq

/-- Take a slot and send the first SYN. Without a free slot `connect` fails
    at once. -/
def connectStart (remoteIp remotePort ticks : Nat) (st : Stack) :
    Option (Stack × Waiting × List SentSegment) :=
  match tcpAllocConn st.conns with
  | none => none
  | some i =>
    let c := synConn remoteIp remotePort st.nextLocalPort ticks
    some ({ conns := Function.update st.conns i c, nextLocalPort := bumpPort st.nextLocalPort },
      { slot := i, attempt := 0, start := ticks }, tcpSendSegment c TCP_SYN [])

/-- Give a slot back. -/
def release (c : TcpConn) : TcpConn := { c with inUse := false, state := .closed }

/-- What one turn of the wait loop comes to. -/
inductive Polled where
  | returns (i : Fin TCP_MAX_CONNS)
  | waits (w : Waiting) (out : List SentSegment)
  | timesOut

/-- The attempt has had its two seconds. -/
def Waiting.expired (w : Waiting) (ticks : Nat) : Bool := !(wrappingSub32 ticks w.start < 200)

/-- One turn of the wait loop of `connect`: three attempts of two seconds,
    each with its own SYN, and then the slot is given back. -/
def connectPoll (ticks : Nat) (w : Waiting) (conns : Conns) : Conns × Polled :=
  if w.expired ticks then
    if w.attempt + 1 < 3 then
      (conns, .waits { w with attempt := w.attempt + 1, start := ticks }
        (tcpSendSegment (conns w.slot) TCP_SYN []))
    else (Function.update conns w.slot (release (conns w.slot)), .timesOut)
  else if (conns w.slot).connected then (conns, .returns w.slot)
  else (conns, .waits w [])

/-- A `close` in one of its wait loops: for the peer's answer to the FIN, or
    in `timeWait`. -/
inductive Closing where
  | finWait (start : Nat)
  | lingering (start : Nat)
deriving DecidableEq

/-- The end of `close`: wait in `timeWait`, or give the slot back. -/
def closeEnd (ticks : Nat) (i : Fin TCP_MAX_CONNS) (conns : Conns) : Conns × Option Closing :=
  if (conns i).state = .timeWait then (conns, some (.lingering ticks))
  else (Function.update conns i (release (conns i)), none)

/-- Send the FIN, if the connection is open. -/
def closeStart (ticks : Nat) (i : Fin TCP_MAX_CONNS) (conns : Conns) :
    Conns × Option Closing × List SentSegment :=
  if (conns i).inUse = false then (conns, none, [])
  else if (conns i).state = .established ∨ (conns i).state = .synSent then
    (Function.update conns i
      { conns i with sendSeq := u32 ((conns i).sendSeq + 1), state := .finWait1 },
      some (.finWait ticks), tcpSendSegment (conns i) (TCP_FIN ||| TCP_ACK) [])
  else ((closeEnd ticks i conns).1, (closeEnd ticks i conns).2, [])

/-- One turn of the wait loops of `close`. -/
def closePoll (ticks : Nat) (i : Fin TCP_MAX_CONNS) (conns : Conns) :
    Closing → Conns × Option Closing
  | .finWait start =>
    if (conns i).state ≠ .closed ∧ (conns i).state ≠ .timeWait ∧
        wrappingSub32 ticks start < 200 then
      (conns, some (.finWait start))
    else closeEnd ticks i conns
  | .lingering start =>
    if wrappingSub32 ticks start < 50 then (conns, some (.lingering start))
    else (Function.update conns i (release (conns i)), none)

end SysRust.Tcp
