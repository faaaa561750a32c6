import SysRust.Core.Net.Tcp
import SysRust.Lib.Reader

/-!
# The Receive Path

Everything that happens to a frame from `net::rx` on: Ethernet, ARP, IPv4,
ICMP, TCP, UDP and the DNS response handler. It runs in the network card's
interrupt.

The source hands each layer a pointer into the frame and a length it has
computed. Here a layer is given the whole frame, the offset the pointer
stands for and that length, and reads go through `byteAt` and its relatives,
which fail outside of the frame. A result of `none` therefore stands for a
read past the end. Where the source reads a run of bytes only in some
branches (the TCP payload, the sender's hardware address), the model reads
it before the branch, so it reads no less than the source does.

Packets handed to the layers below are returned as a list.

## Main definitions

* `Net`: The state of the protocols.
* `Sent`: What the receive path sends.
* `checksum`, `tcpChecksum`: The Internet checksum over frame bytes.
* `arpRx`, `icmpRx`, `tcpRx`, `udpRx`, `ipv4Rx`, `rx`: The layers.
* `dnsSkipName`, `dnsRx`: The DNS response handler.
-/

namespace SysRust.Net

open Tcp

def NET_IP_ADDR : Nat := 0x0A00020F
def ETH_TYPE_IP : Nat := 0x0800
def ETH_TYPE_ARP : Nat := 0x0806
def IP_PROTO_ICMP : Nat := 1
def IP_PROTO_TCP : Nat := 6
def IP_PROTO_UDP : Nat := 17
def ARP_TABLE_SIZE : Nat := 16
def ICMP_ECHO_REPLY : Nat := 0
def ICMP_ECHO_REQUEST : Nat := 8
def DNS_TYPE_A : Nat := 1
def DNS_CLASS_IN : Nat := 1

def htons (v : Nat) : Nat := (v >>> 8) ||| u16 (v <<< 8)

def ntohs (v : Nat) : Nat := htons v

def htonl (v : Nat) : Nat :=
  ((v >>> 24) &&& 0xFF) ||| ((v >>> 8) &&& 0xFF00) |||
    (u32 (v <<< 8) &&& 0xFF0000) ||| (u32 (v <<< 24) &&& 0xFF000000)

def ntohl (v : Nat) : Nat := htonl v

structure ArpEntry where
  ip : Nat
  mac : List UInt8
  valid : Bool

/-- The handlers that are ever bound to a UDP port. -/
inductive UdpHandler where
  | dnsRx

structure UdpBindEntry where
  port : Nat
  handler : Option UdpHandler

/-- The last echo reply, for the ping command. -/
structure IcmpReply where
  received : Bool
  id : Nat
  seq : Nat
  srcIp : Nat

/-- The state of the DNS resolver. -/
structure Dns where
  queryId : Nat
  replyReady : Bool
  replyIp : Nat
  replyId : Nat

end Net

/-- The state the receive path works on. The UDP table is its bound part, in
    order. -/
structure Net where
  arpTable : Fin Net.ARP_TABLE_SIZE → Net.ArpEntry
  conns : Tcp.Conns
  bindTable : List Net.UdpBindEntry
  icmpReply : Net.IcmpReply
  dns : Net.Dns

namespace Net

open Tcp

/-- What the receive path sends. -/
inductive Sent where
  | arpReply (dstMac : List UInt8) (dstIp : Nat)
  | icmp (dstIp : Nat) (payload : List UInt8)
  | tcp (segment : SentSegment)

/-- The result of a layer: the new state and what was sent, or `none` for a
    read outside of the frame. -/
abbrev Result := Option (Net × List Sent)

/-! ### Checksums -/

/-- The sum of the little-endian 16-bit words, a last odd byte included. -/
def sumWords : List UInt8 → Nat
  | [] => 0
  | [b] => b.toNat
  | a :: b :: rest => a.toNat + 256 * b.toNat + sumWords rest

/-- The ones-complement checksum of a byte string. -/
def checksumBytes (bs : List UInt8) : Nat :=
  let sum := u32 (sumWords bs)
  let sum := (sum >>> 16) + (sum &&& 0xFFFF)
  let sum := sum + (sum >>> 16)
  0xFFFF - u16 sum

/-- The checksum of `length` bytes of the frame. -/
def checksum (f : List UInt8) (base length : Nat) : Option Nat :=
  (bytesAt f base length).map checksumBytes

/-- A 32-bit value in network byte order. -/
def be32Bytes (v : Nat) : List UInt8 :=
  [UInt8.ofNat (v / 2 ^ 24), UInt8.ofNat (v / 2 ^ 16), UInt8.ofNat (v / 2 ^ 8), UInt8.ofNat v]

/-- The TCP checksum over the pseudo-header and the segment. A segment that
    is too long for the buffer is taken to be correct. -/
def tcpChecksum (f : List UInt8) (srcIp dstIp base tcpLen : Nat) : Option Nat :=
  if tcpLen > 1480 then some 0
  else
    (bytesAt f base tcpLen).map (fun seg =>
      checksumBytes (be32Bytes srcIp ++ be32Bytes dstIp ++
        [0, 6, UInt8.ofNat (tcpLen / 2 ^ 8), UInt8.ofNat tcpLen] ++ seg))

/-! ### ARP -/

/-- Replace the entry for `ip`, or fill the first free one. -/
def arpTableUpdate (ip : Nat) (mac : List UInt8) (table : Fin ARP_TABLE_SIZE → ArpEntry) :
    Fin ARP_TABLE_SIZE → ArpEntry :=
  match Fin.find? (fun i => (table i).valid && (table i).ip == ip) with
  | some i => Function.update table i { table i with mac := mac }
  | none =>
    match Fin.find? (fun i => !(table i).valid) with
    | some i => Function.update table i { ip := ip, mac := mac, valid := true }
    | none => table

def arpRx (f : List UInt8) (base length : Nat) (net : Net) : Result :=
  if length < 28 then some (net, [])
  else
    (le16 f base).bind (fun hwType =>
      if ntohs hwType ≠ 1 then some (net, [])
      else
        (le16 f (base + 2)).bind (fun protoType =>
          if ntohs protoType ≠ 0x0800 then some (net, [])
          else
            (le16 f (base + 6)).bind (fun opcode =>
              (be32 f (base + 14)).bind (fun senderIp =>
                (be32 f (base + 24)).bind (fun targetIp =>
                  (bytesAt f (base + 8) 6).bind (fun senderMac =>
                    let net' := { net with
                      arpTable := arpTableUpdate senderIp senderMac net.arpTable }
                    if ntohs opcode = 1 ∧ targetIp = NET_IP_ADDR then
                      some (net', [.arpReply senderMac senderIp])
                    else some (net', [])))))))

/-! ### ICMP -/

/-- The echo reply: the same message with type 0 and a new checksum. -/
def echoReply (bs : List UInt8) : List UInt8 :=
  let cleared := ((bs.set 0 0).set 2 0).set 3 0
  let sum := checksumBytes cleared
  (cleared.set 2 (UInt8.ofNat sum)).set 3 (UInt8.ofNat (sum / 2 ^ 8))

def icmpRx (f : List UInt8) (srcIp base length : Nat) (net : Net) : Result :=
  if length < 8 then some (net, [])
  else
    (checksum f base length).bind (fun sum =>
      if sum ≠ 0 then some (net, [])
      else
        (byteAt f base).bind (fun type =>
          (byteAt f (base + 1)).bind (fun code =>
            if type = ICMP_ECHO_REQUEST ∧ code = 0 then
              if length > 1500 then some (net, [])
              else
                (bytesAt f base length).bind (fun bs =>
                  some (net, [.icmp srcIp (echoReply bs)]))
            else if type = ICMP_ECHO_REPLY ∧ code = 0 then
              (le16 f (base + 4)).bind (fun identifier =>
                (le16 f (base + 6)).bind (fun sequence =>
                  some ({ net with icmpReply :=
                    { received := true, id := ntohs identifier, seq := ntohs sequence,
                      srcIp := srcIp } }, [])))
            else some (net, []))))

/-! ### TCP -/

/-- Check the segment, take it apart and hand it to the connections. -/
def tcpRx (f : List UInt8) (srcIp base length : Nat) (net : Net) : Result :=
  if length < 20 then some (net, [])
  else
    (tcpChecksum f srcIp NET_IP_ADDR base length).bind (fun sum =>
      if sum ≠ 0 then some (net, [])
      else
        (le16 f base).bind (fun srcPort =>
          (le16 f (base + 2)).bind (fun dstPort =>
            (byteAt f (base + 13)).bind (fun flags =>
              (le32 f (base + 4)).bind (fun seq =>
                (le32 f (base + 8)).bind (fun ack =>
                  (byteAt f (base + 12)).bind (fun dataOffset =>
                    let hdrLen := u8 ((dataOffset >>> 4) * 4)
                    if hdrLen < 20 ∨ hdrLen > length then some (net, [])
                    else
                      (bytesAt f (base + hdrLen) (length - hdrLen)).bind (fun payload =>
                        let r := Tcp.rx srcIp
                          { srcPort := ntohs srcPort, dstPort := ntohs dstPort, seq := ntohl seq,
                            ack := ntohl ack, flags := BitVec.ofNat 8 flags,
                            payload := payload } net.conns
                        some ({ net with conns := r.1 }, r.2.map .tcp)))))))))

/-! ### DNS -/

/-- Skip a name in a DNS message of `pktLen` bytes: how many bytes it takes
    at the place it stands, or `none` inside if it is malformed. `jumped`
    holds that number once a compression pointer has been followed, after
    which the walk goes on wherever the pointer leads. -/
def dnsSkipName (f : List UInt8) (base pktLen start off : Nat) (jumped : Option Nat)
    (hops : Nat) : Option (Option Nat) :=
  if hoff : off < pktLen then
    (byteAt f (base + off)).bind (fun b =>
      if b = 0 then some (some (jumped.getD (off - start + 1)))
      else if b &&& 0xC0 = 0xC0 then
        -- At most 64 pointers are followed, so that circular ones end.
        if hhops : hops + 1 > 64 then some none
        else if off + 1 ≥ pktLen then some none
        else
          (byteAt f (base + off + 1)).bind (fun low =>
            dnsSkipName f base pktLen start (((b &&& 0x3F) <<< 8) ||| low)
              (some (jumped.getD (off - start + 2))) (hops + 1))
      else dnsSkipName f base pktLen start (off + 1 + b) jumped hops)
  else some none
termination_by (65 - hops, pktLen - off)

/-- Skip the question section. -/
def dnsSkipQuestions (f : List UInt8) (base length : Nat) : Nat → Nat → Option (Option Nat)
  | 0, offset => some (some offset)
  | n + 1, offset =>
    (dnsSkipName f base length offset offset none 0).bind (fun r =>
      match r with
      | none => some none
      | some skip =>
        if offset + skip + 4 > length then some none
        else dnsSkipQuestions f base length n (offset + skip + 4))

/-- The two bytes at an index, most significant first. -/
def be16 (f : List UInt8) (i : Nat) : Option Nat :=
  (byteAt f i).bind (fun a => (byteAt f (i + 1)).map (fun b => (a <<< 8) ||| b))

/-- Look for the first address record among `n` answers. -/
def dnsFindAnswer (f : List UInt8) (base length : Nat) : Nat → Nat → Option (Option Nat)
  | 0, _ => some none
  | n + 1, offset =>
    (dnsSkipName f base length offset offset none 0).bind (fun r =>
      match r with
      | none => some none
      | some skip =>
        let offset := offset + skip
        if offset + 10 > length then some none
        else
          (be16 f (base + offset)).bind (fun rtype =>
            (be16 f (base + offset + 2)).bind (fun rclass =>
              (be16 f (base + offset + 8)).bind (fun rdlength =>
                if offset + 10 + rdlength > length then some none
                else if rtype = DNS_TYPE_A ∧ rclass = DNS_CLASS_IN ∧ rdlength = 4 then
                  (be32 f (base + offset + 10)).map some
                else dnsFindAnswer f base length n (offset + 10 + rdlength)))))

/-- Handle a DNS response. -/
def dnsRx (f : List UInt8) (base length : Nat) (net : Net) : Result :=
  if length < 12 then some (net, [])
  else
    (le16 f base).bind (fun id =>
      (le16 f (base + 2)).bind (fun flags =>
        (le16 f (base + 4)).bind (fun qdcount =>
          (le16 f (base + 6)).bind (fun ancount =>
            if ntohs flags &&& 0x8000 = 0 then some (net, [])
            else if ntohs id ≠ net.dns.queryId then some (net, [])
            else
              (dnsSkipQuestions f base length (ntohs qdcount) 12).bind (fun r =>
                match r with
                | none => some (net, [])
                | some offset =>
                  (dnsFindAnswer f base length (ntohs ancount) offset).bind (fun answer =>
                    match answer with
                    | none => some (net, [])
                    | some ip =>
                      some ({ net with dns := { net.dns with
                        replyIp := ip, replyId := ntohs id, replyReady := true } }, [])))))))

/-! ### UDP, IPv4 and Ethernet -/

/-- The first bound handler of a port. -/
def findHandler (table : List UdpBindEntry) (port : Nat) : Option UdpHandler :=
  (table.find? (fun e => e.port == port && e.handler.isSome)).bind UdpBindEntry.handler

def udpRx (f : List UInt8) (base length : Nat) (net : Net) : Result :=
  if length < 8 then some (net, [])
  else
    (le16 f (base + 2)).bind (fun dstPort =>
      (le16 f (base + 4)).bind (fun len =>
        let udpLen := ntohs len
        if udpLen < 8 ∨ udpLen > length then some (net, [])
        else
          match findHandler net.bindTable (ntohs dstPort) with
          | none => some (net, [])
          | some .dnsRx => (le16 f base).bind (fun _ => dnsRx f (base + 8) (udpLen - 8) net)))

/-- Validate the header and dispatch by protocol number. -/
def ipv4Rx (f : List UInt8) (base length : Nat) (net : Net) : Result :=
  if length < 20 then some (net, [])
  else
    (byteAt f base).bind (fun versionIhl =>
      if versionIhl >>> 4 ≠ 4 then some (net, [])
      else
        (le16 f (base + 2)).bind (fun len =>
          let hdrLen := (versionIhl &&& 0x0F) * 4
          let totalLen := ntohs len
          if length < totalLen ∨ totalLen < hdrLen then some (net, [])
          else
            (checksum f base hdrLen).bind (fun sum =>
              if sum ≠ 0 then some (net, [])
              else
                (le32 f (base + 16)).bind (fun dstIp =>
                  if ntohl dstIp ≠ NET_IP_ADDR ∧ ntohl dstIp ≠ 0xFFFFFFFF then some (net, [])
                  else
                    (byteAt f (base + 9)).bind (fun protocol =>
                      (le32 f (base + 12)).bind (fun srcIp =>
                        let payload := base + hdrLen
                        let payloadLen := totalLen - hdrLen
                        if protocol = IP_PROTO_ICMP then
                          icmpRx f (ntohl srcIp) payload payloadLen net
                        else if protocol = IP_PROTO_TCP then
                          tcpRx f (ntohl srcIp) payload payloadLen net
                        else if protocol = IP_PROTO_UDP then udpRx f payload payloadLen net
                        else some (net, [])))))))

/-- Handle a frame, whose length is passed in 16 bits. -/
def rx (f : List UInt8) (net : Net) : Result :=
  let length := u16 f.length
  if length < 14 then some (net, [])
  else
    (le16 f 12).bind (fun ethertype =>
      if ntohs ethertype = ETH_TYPE_ARP then arpRx f 14 (length - 14) net
      else if ntohs ethertype = ETH_TYPE_IP then ipv4Rx f 14 (length - 14) net
      else some (net, []))

end SysRust.Net
