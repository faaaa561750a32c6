import SysRust.Core.Net.Rx
import SysRust.Lib.Machine

/-!
# The Send Path

`ipv4::send` with `arp::resolve` and `net::send_ethernet`. The packet is put
together in one static buffer; then the hardware address of the next hop is
looked up, with up to three requests and 20 ticks of waiting after each; then
the packet is copied from the buffer into a frame and handed to the network
card.

A call from user context can be interrupted while it waits, and the receive
path calls `ipv4::send` itself for its answers. So a call is given as the
steps it takes, and `rxStep` is the complete handling of a frame in between.
An answer whose next hop is not in the ARP table makes the receive path wait
for a tick in an interrupt; this is `none`.

## Main definitions

* `nextHop`, `arpTableLookup`: Where a packet goes first.
* `ipHeader`, `segmentBytes`: The bytes of the headers.
* `segmentHanded`: A segment as it is given to `ipv4::send`.
* `tcpSend`: `tcp::send` down to `ipv4::send`.
* `Datagram`, `SendStack`: A packet to send, and the state of the send path.
* `build`, `transmit`, `sendNow`: A packet in the buffer, and its frame.
* `rxStep`: A frame is handled, with its answers.
* `beginSend`, `pollSend`: The steps of a call.
* `sender`: Calls, frames and ticks in any order.
* `TxPath`: What each function writes to its static buffer.
-/

namespace SysRust.Net

open Tcp

def NET_GATEWAY : Nat := 0x0A000202
def NET_SUBNET_MASK : Nat := 0xFFFFFF00

/-- The destination itself on the local network, the gateway otherwise. -/
def nextHop (dstIp : Nat) : Nat :=
  if dstIp &&& NET_SUBNET_MASK = NET_IP_ADDR &&& NET_SUBNET_MASK then dstIp else NET_GATEWAY

/-- The hardware address of the first valid entry for `ip`. -/
def arpTableLookup (ip : Nat) (table : Fin ARP_TABLE_SIZE → ArpEntry) : Option (List UInt8) :=
  (Fin.find? (fun i => (table i).valid && (table i).ip == ip)).map (fun i => (table i).mac)

/-- A 16-bit value in network byte order. -/
def be16Bytes (v : Nat) : List UInt8 := [UInt8.ofNat (v / 2 ^ 8), UInt8.ofNat v]

/-- A checksum is stored as it was computed, low byte first. -/
def sumBytes (sum : Nat) : List UInt8 := [UInt8.ofNat sum, UInt8.ofNat (sum / 2 ^ 8)]

/-- A packet given to `ipv4::send`. -/
structure Datagram where
  dstIp : Nat
  protocol : Nat
  payload : List UInt8
deriving DecidableEq

/-- The IPv4 header of a packet, with its identification and checksum. -/
def ipHeader (d : Datagram) (id sum : Nat) : List UInt8 :=
  [0x45, 0] ++ be16Bytes (20 + d.payload.length) ++ be16Bytes id ++ be16Bytes 0x4000 ++
    [64, UInt8.ofNat d.protocol] ++ sumBytes sum ++ be32Bytes NET_IP_ADDR ++ be32Bytes d.dstIp

/-- The bytes `tcp_send_segment` puts together, with this checksum. -/
def segmentWith (seg : SentSegment) (sum : Nat) : List UInt8 :=
  be16Bytes seg.srcPort ++ be16Bytes seg.dstPort ++ be32Bytes seg.seqNum ++ be32Bytes seg.ackNum ++
    [0x50, UInt8.ofNat seg.flags.toNat] ++ be16Bytes seg.window ++ sumBytes sum ++ [0, 0] ++
    seg.data

/-- The segment with the checksum over it and its pseudo-header: as much of it
    as the length counts, which has 16 bits. -/
def segmentBytes (seg : SentSegment) : List UInt8 :=
  let tcpLen := u16 (20 + seg.data.length)
  let sum := checksumBytes (be32Bytes NET_IP_ADDR ++ be32Bytes seg.remoteIp ++
    [0, 6, UInt8.ofNat (tcpLen / 2 ^ 8), UInt8.ofNat tcpLen] ++ (segmentWith seg 0).take tcpLen)
  (segmentWith seg sum).take tcpLen

/-- What `tcp_send_segment` hands to `ipv4::send`. -/
def segmentHanded (seg : SentSegment) : Datagram :=
  { dstIp := seg.remoteIp, protocol := IP_PROTO_TCP, payload := segmentBytes seg }

/-- A frame that was handed to the network card for a call of `ipv4::send`
    that returned 0. -/
structure Handed where
  call : Datagram
  frame : List UInt8
deriving DecidableEq

/-- Where a call of `ipv4::send` is, once the packet is in the buffer. -/
inductive SendPc where
  | lookup
  | wait (attempt start : Nat)
  | found (mac : List UInt8)
deriving DecidableEq

structure Sending where
  call : Datagram
  pc : SendPc
deriving DecidableEq

/-- The state of the send path: the protocols, the packet buffer, the timer,
    a call from user context, and the frames so far. -/
structure SendStack where
  net : Net
  ourMac : List UInt8
  pktBuf : List UInt8
  ipIdCounter : Nat
  ticks : Nat
  sending : Option Sending
  handed : List Handed

/-- The packet is too long for the buffer. -/
def tooLong (d : Datagram) : Bool := d.payload.length + 20 > 1500

/-- Put the packet into the buffer; what is behind it there stays. -/
def build (d : Datagram) (s : SendStack) : SendStack :=
  let header := ipHeader d s.ipIdCounter (checksumBytes (ipHeader d s.ipIdCounter 0))
  { s with
    pktBuf := header ++ d.payload ++ s.pktBuf.drop (20 + d.payload.length)
    ipIdCounter := u16 (s.ipIdCounter + 1) }

/-- Copy the packet from the buffer into a frame and hand it over. -/
def transmit (d : Datagram) (mac : List UInt8) (s : SendStack) : SendStack :=
  let frame := mac ++ s.ourMac ++ be16Bytes ETH_TYPE_IP ++ s.pktBuf.take (20 + d.payload.length)
  { s with handed := s.handed ++ [{ call := d, frame := frame }] }

/-- A call that must not wait: `none` if it does. -/
def sendNow (s : SendStack) (d : Datagram) : Option SendStack :=
  if tooLong d then some s
  else
    (arpTableLookup (nextHop d.dstIp) s.net.arpTable).map (fun mac => transmit d mac (build d s))

/-- What the receive path gives to `ipv4::send`. -/
def Sent.datagram : Sent → Option Datagram
  | .arpReply _ _ => none
  | .icmp dstIp payload => some { dstIp := dstIp, protocol := IP_PROTO_ICMP, payload := payload }
  | .tcp seg => some (segmentHanded seg)

/-- Handle a frame and send the answers. -/
def rxStep (f : List UInt8) (s : SendStack) : Option SendStack :=
  (rx f s.net).bind (fun r => (r.2.filterMap Sent.datagram).foldlM sendNow { s with net := r.1 })

/-! ### A call from user context -/

/-- The call begins: the packet is put into the buffer. -/
def beginSend (d : Datagram) (s : SendStack) : SendStack :=
  if tooLong d then s else { build d s with sending := some { call := d, pc := .lookup } }

def ARP_ATTEMPTS : Nat := 3
def ARP_WAIT_TICKS : Nat := 20

/-- The call goes on: a lookup, another request when the time is up, the end
    without an answer, or the frame. -/
def pollSend (c : Sending) (s : SendStack) : SendStack :=
  let goOn (pc : SendPc) : SendStack := { s with sending := some { c with pc := pc } }
  let look (missing : SendPc) : SendStack :=
    match arpTableLookup (nextHop c.call.dstIp) s.net.arpTable with
    | some mac => goOn (.found mac)
    | none => goOn missing
  match c.pc with
  | .lookup => look (.wait 0 s.ticks)
  | .wait attempt start =>
    if u32 (s.ticks + 2 ^ 32 - start) < ARP_WAIT_TICKS then look (.wait attempt start)
    else if attempt + 1 < ARP_ATTEMPTS then goOn (.wait (attempt + 1) s.ticks)
    else { s with sending := none }
  | .found mac => { transmit c.call mac s with sending := none }

/-- What can happen next. -/
inductive SendOp where
  | send (d : Datagram)
  | poll
  | receive (f : List UInt8)
  | tick

def execSend (s : SendStack) : SendOp → Option SendStack
  | .send d => if s.sending.isSome then none else some (beginSend d s)
  | .poll => s.sending.map (fun c => pollSend c s)
  | .receive f => rxStep f s
  | .tick => some { s with ticks := u32 (s.ticks + 1) }

/-- Calls, frames and ticks in any order, from any state without a call. -/
def sender : Machine SendStack SendOp where
  start := fun s => s.sending = none ∧ s.handed = [] ∧ s.ourMac.length = 6 ∧
    (∀ i, (s.net.arpTable i).mac.length = 6)
  allows := fun s o => (execSend s o).isSome = true
  exec := execSend

/-! ### TCP data -/

/-- `tcp::send`: its result, the connections after it, and what it hands to
    `ipv4::send`. -/
def tcpSend (connId : Int) (data : List UInt8) (conns : Conns) : Int × Conns × List Datagram :=
  if h : 0 ≤ connId ∧ connId < TCP_MAX_CONNS then
    let i : Fin TCP_MAX_CONNS := ⟨connId.toNat, by omega⟩
    if (conns i).inUse = false ∨ (conns i).state ≠ .established then (-1, conns, [])
    else
      let r := Tcp.send data (conns i)
      (0, Function.update conns i r.1, r.2.map segmentHanded)
  else (-1, conns, [])

/-! ### Static buffers -/

/-- The functions that put something together in a static buffer. -/
inductive TxPath where
  | tcpSendSegment
  | tcpChecksum
  | udpSend
  | icmpReply
  | ipv4Send
  | sendEthernet

/-- The sizes of `SEG_BUF`, `CSUM_BUF`, `BUF`, `REPLY_BUF`, `PKT_BUF` and
    `FRAME`. -/
def TxPath.bufSize : TxPath → Nat
  | .tcpSendSegment => 1480
  | .tcpChecksum => 12 + 1480
  | .udpSend => 1500
  | .icmpReply => 1500
  | .ipv4Send => 1500
  | .sendEthernet => 1518

/-- The writes to the buffer for a payload of `length` bytes, each an offset
    and a number of bytes. TCP and UDP add their header in 16 bits. -/
def TxPath.writes (length : Nat) : TxPath → List (Nat × Nat)
  | .tcpSendSegment => if u16 (20 + length) > 1480 then [] else [(0, 20), (20, length)]
  | .tcpChecksum => if length > 1480 then [] else [(0, 12), (12, length)]
  | .udpSend => if u16 (8 + length) > 1480 then [] else [(0, 8), (8, length)]
  | .icmpReply => if length < 8 ∨ length > 1500 then [] else [(0, length), (0, 1), (2, 2)]
  | .ipv4Send => if u32 (length + 20) > 1500 then [] else [(0, 20), (20, length)]
  | .sendEthernet => if u32 (length + 14) > 1518 then [] else [(0, 14), (14, length)]

end SysRust.Net
