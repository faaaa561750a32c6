import SysRust.Theory.Net.RxBounds
import SysRust.Theory.Net.TcpReceive

/-!
# Answers of the Receive Path

Which frames the receive path answers, and where the answers go. The frames
are described by what is in them: an IPv4 packet for this host that is an
echo request, or a TCP segment that the connection it is for, or the lack of
one, has an answer to. Every answer goes back to the source of the packet.

The receive path runs in an interrupt, so it must not wait. It waits exactly
if it has an answer to send and the next hop to the source is not in the ARP
table; nothing enters the source of a packet there.

## Main definitions

* `ipPacket`: The IPv4 packet for this host in a frame.
* `Answered`: What calls for an answer.
* `PacketCalls`, `CallsForReply`: A packet or a frame is answered, to this
  address.
* `Replies`: The packets sent are those called for.
* `booted`: The send path after the start, with these ARP entries.
* `pingFrame`: An echo request from the gateway.

## Theorems

* `rx_eq`: The receive path, by what is in the frame.
* `sent_nonempty_iff`: Which segments are answered.
* `icmpRx_replies`, `tcpRx_replies`, `replies_of_rx`: The answers of the
  layers, and of the receive path.
* `rxStep_isSome_iff`: When the receive path does not wait.
* `rx_waits`: An echo request for which it does.
-/

namespace SysRust.Net

open Tcp List Option

/-! ### What is in a frame -/

/-- The IPv4 packet for this host in a frame, with a valid header: its
    source, its protocol, and where its payload is. -/
def ipPacket (f : List UInt8) : Option (Nat × Nat × Nat × Nat) :=
  let length := u16 f.length
  if length < 34 then none
  else do
    let ethertype ← le16 f 12
    let versionIhl ← byteAt f 14
    let len ← le16 f 16
    let hdrLen := (versionIhl &&& 0x0F) * 4
    let sum ← checksum f 14 hdrLen
    let protocol ← byteAt f 23
    let srcIp ← le32 f 26
    let dstIp ← le32 f 30
    if ntohs ethertype = ETH_TYPE_IP ∧ versionIhl >>> 4 = 4 ∧ ntohs len ≤ length - 14 ∧
        hdrLen ≤ ntohs len ∧ sum = 0 ∧ (ntohl dstIp = NET_IP_ADDR ∨ ntohl dstIp = 0xFFFFFFFF) then
      some (ntohl srcIp, protocol, 14 + hdrLen, ntohs len - hdrLen)
    else none

/-- The segment is answered. It is not a reset, and no connection takes it
    or the one that does expects it. -/
def Answered (conns : Conns) (srcIp : Nat) (seg : Segment) : Prop :=
  hasFlag seg.flags TCP_RST = false ∧
    ∀ i, tcpFindConn conns srcIp seg.srcPort seg.dstPort = some i → Expected seg (conns i)

/-- A packet calls for an answer: an echo request that is not too long to be
    answered, or a segment. -/
def PacketCalls (f : List UInt8) (net : Net) (srcIp protocol base length : Nat) : Prop :=
  (protocol = IP_PROTO_ICMP ∧ EchoRequest f base length ∧ length ≤ 1480) ∨
    (protocol = IP_PROTO_TCP ∧
      ∃ seg, tcpSegment f srcIp base length = some seg ∧ Answered net.conns srcIp seg)

/-- The frame holds a packet from `srcIp` that calls for an answer. -/
def CallsForReply (f : List UInt8) (net : Net) (srcIp : Nat) : Prop :=
  ∃ protocol base length, ipPacket f = some (srcIp, protocol, base, length) ∧
    PacketCalls f net srcIp protocol base length

/-! ### TCP -/

/-- Which segments are answered. -/
theorem sent_nonempty_iff (srcIp : Nat) (seg : Segment) (conns : Conns) :
    (Tcp.rx srcIp seg conns).2 ≠ [] ↔ Answered conns srcIp seg := by
  unfold Tcp.rx Answered
  cases hf : tcpFindConn conns srcIp seg.srcPort seg.dstPort with
  | none => simp only [rxReset_ne_nil, reduceCtorEq, false_implies, implies_true, and_true]
  | some i =>
    simp only [some.injEq, forall_eq']
    rcases rxConn_cases seg (conns i) with ⟨hr, h0⟩ | ⟨hr, hs⟩
    · simp only [h0, hr, ne_eq, not_true_eq_false, Bool.true_eq_false, false_and]
    · simp only [hs.answers, hr, true_and]

variable {srcIp ethertype base length : Nat} {f : List UInt8} {net net' : Net} {sent : List Sent}
  {o : SentSegment}

/-- Answers carry no data. -/
theorem sent_no_data {seg : Segment} {conns : Conns} (h : o ∈ (Tcp.rx srcIp seg conns).2) :
    o.data = [] := by
  unfold Tcp.rx at h
  split at h
  · unfold rxReset at h
    split_ifs at h
    · exact absurd h not_mem_nil
    · rw [mem_singleton.mp h]
    · rw [mem_singleton.mp h]
  · rcases rxConn_sent h with ⟨e, _, rfl⟩
    rfl

/-- Answers go back to where the segment came from. -/
theorem sent_to_source {seg : Segment} {conns : Conns} (h : o ∈ (Tcp.rx srcIp seg conns).2) :
    o.remoteIp = srcIp := by
  unfold Tcp.rx at h
  cases hf : tcpFindConn conns srcIp seg.srcPort seg.dstPort with
  | none =>
    rw [hf] at h
    exact (rxReset_sent h).1
  | some i =>
    rw [hf] at h
    have hm := (tcpFindConn_eq_some.mp hf).1
    simp only [TcpConn.matches, Bool.and_eq_true, beq_iff_eq] at hm
    rw [((rxConn_confined seg (conns i)).sent o h).1, hm.1.1.2]

/-! ### The layers -/

/-- A frame of another type holds no packet. -/
theorem ipPacket_none (h : le16 f 12 = some ethertype) (hne : ntohs ethertype ≠ ETH_TYPE_IP) :
    ipPacket f = none := by
  cases hp : ipPacket f with
  | none => rfl
  | some r =>
    simp only [ipPacket, h] at hp
    split_ifs at hp
    simp only [Option.bind_eq_bind, bind_some, bind_eq_some_iff] at hp
    rcases hp with ⟨_, -, _, -, _, -, _, -, _, -, _, -, hp⟩
    rw [if_neg (fun h' => hne h'.1)] at hp
    cases hp

theorem ipPacket_inside {protocol : Nat} (h : ipPacket f = some (srcIp, protocol, base, length)) :
    base + length ≤ f.length := by
  have hle : u16 f.length ≤ f.length := Nat.mod_le _ _
  simp only [ipPacket] at h
  split_ifs at h with hlen
  simp only [Option.bind_eq_bind, bind_eq_some_iff, ite_none_right_eq_some,
    some.injEq, Prod.mk.injEq] at h
  rcases h with ⟨_, -, v, -, len, -, _, -, _, -, _, -, _, -, ⟨-, -, h1, h2, -⟩, -, -, rfl, rfl⟩
  omega

/-- The IPv4 layer takes the packets for this host. -/
theorem ipv4Rx_eq (net : Net) (h : le16 f 12 = some ethertype)
    (he : ntohs ethertype = ETH_TYPE_IP) :
    ipv4Rx f 14 (u16 f.length - 14) net = match ipPacket f with
      | some (srcIp, protocol, base, length) => deliver f srcIp protocol base length net
      | none => some (net, []) := by
  have hle : u16 f.length ≤ f.length := Nat.mod_le _ _
  by_cases hlen : u16 f.length < 34
  · simp only [ipv4Rx, ipPacket, if_pos hlen, show u16 f.length - 14 < 20 by omega, if_true]
  have hin : 14 + (u16 f.length - 14) ≤ f.length := by omega
  rcases isSome_iff_exists.mp (ipv4Header_isSome hin (by omega)) with ⟨r, hr⟩
  rcases ipv4Rx_header hin hr net with ⟨hyes, hno⟩
  unfold ipv4Header at hr
  rw [if_neg (by omega)] at hr
  simp only [Option.bind_eq_bind, bind_eq_some_iff, some.injEq] at hr
  rcases hr with ⟨v, hv, len, hl, fragment, -, p, hp, src, hs, dst, hd, rfl⟩
  simp only [ipPacket, if_neg hlen, h, hv, hl, hp, hs, hd, Option.bind_eq_bind, bind_some,
    he, true_and]
  by_cases hacc : Accepted f 14 (u16 f.length - 14)
      ⟨v, ntohs len, ntohs fragment, p, ntohl src, ntohl dst⟩
  · have hsum : checksum f 14 ((v &&& 0x0F) * 4) = some 0 := hacc.sum
    rw [hyes hacc, hsum, bind_some,
      if_pos ⟨hacc.version, hacc.total, hacc.header, rfl, hacc.dest⟩]
    rfl
  · rw [hno hacc]
    cases hsum : checksum f 14 ((v &&& 0x0F) * 4) with
    | none => rfl
    | some sum =>
      rw [bind_some, if_neg (fun h' => hacc ⟨h'.1, h'.2.1, h'.2.2.1, ?_, h'.2.2.2.2⟩)]
      exact h'.2.2.2.1 ▸ hsum

/-- The receive path, by what is in the frame. -/
theorem rx_eq (f : List UInt8) (net : Net) :
    rx f net = match ipPacket f with
      | some (srcIp, protocol, base, length) => deliver f srcIp protocol base length net
      | none =>
        if 14 ≤ u16 f.length ∧ (le16 f 12).map ntohs = some ETH_TYPE_ARP then
          arpRx f 14 (u16 f.length - 14) net
        else some (net, []) := by
  have hle : u16 f.length ≤ f.length := Nat.mod_le _ _
  by_cases hlen : u16 f.length < 14
  · have hno : ipPacket f = none := by
      simp only [ipPacket, show u16 f.length < 34 by omega, if_true]
    simp only [rx, if_pos hlen, hno]
    rw [if_neg (by omega)]
  rcases isSome_iff_exists.mp (le16_isSome (f := f) (i := 12) (by omega)) with ⟨t, ht⟩
  simp only [rx, if_neg hlen, ht, bind_some, map_some, some.injEq]
  by_cases harp : ntohs t = ETH_TYPE_ARP
  · rw [if_pos harp, ipPacket_none ht (by rw [harp]; decide)]
    rw [if_pos ⟨by omega, harp⟩]
  rw [if_neg harp]
  by_cases hip : ntohs t = ETH_TYPE_IP
  · rw [if_pos hip, ipv4Rx_eq net ht hip]
    cases ipPacket f with
    | some r => rfl
    | none =>
      rw [if_neg (fun h' => harp h'.2)]
  · rw [if_neg hip, ipPacket_none ht hip]
    rw [if_neg (fun h' => harp h'.2)]

/-! ### The answers -/

/-- A packet that fits is sent. -/
def Fits (d : Datagram) : Prop := tooLong d = false

theorem length_segmentWith (o : SentSegment) (sum : Nat) :
    (segmentWith o sum).length = 20 + o.data.length := by
  simp only [segmentWith, be16Bytes, be32Bytes, sumBytes, length_append, length_cons,
    length_nil]

/-- What is given to `ipv4::send` goes to those who called for an answer, and
    then the ARP table stays as it is. -/
structure Replies (net net' : Net) (sent : List Sent) (calls : Nat → Prop) : Prop where
  called : ∀ d ∈ sent.filterMap Sent.datagram,
    net'.arpTable = net.arpTable ∧ (Fits d → calls d.dstIp)
  answered : ∀ srcIp, calls srcIp → ∃ d ∈ sent.filterMap Sent.datagram, Fits d ∧ d.dstIp = srcIp

section Layers

variable {calls : Nat → Prop} {src : Nat}

/-- Nothing is sent and nothing called for. -/
theorem replies_none (hsent : sent.filterMap Sent.datagram = []) (hcalls : ∀ a, ¬ calls a) :
    Replies net net' sent calls := by
  refine ⟨fun d hd => ?_, fun a ha => absurd ha (hcalls a)⟩
  rw [hsent] at hd
  exact absurd hd not_mem_nil

theorem icmpRx_replies (hin : base + length ≤ f.length)
    (h : icmpRx f src base length net = some (net', sent)) :
    Replies net net' sent (fun a => a = src ∧ EchoRequest f base length ∧ length ≤ 1480) := by
  rcases (icmpRx_returns hin).of_eq_some h with
    ⟨htab, ⟨hecho, hlen, payload, hpl, rfl⟩ | ⟨hno, rfl⟩⟩
  · refine ⟨fun d hd => ⟨htab, fun hfit => ?_⟩, fun srcIp hc => ?_⟩
    · rw [mem_singleton.mp hd] at hfit ⊢
      simp only [Fits, tooLong, decide_eq_false_iff_not, hpl] at hfit
      exact ⟨rfl, hecho, by omega⟩
    · rcases hc with ⟨rfl, -, hle⟩
      refine ⟨_, mem_singleton_self _, ?_, rfl⟩
      simp only [Fits, tooLong, decide_eq_false_iff_not, hpl]
      omega
  · refine replies_none rfl ?_
    rintro a ⟨-, hecho, hle⟩
    exact hno ⟨hecho, by omega⟩

/-- An answer to a segment is a packet that fits. -/
theorem fits_answer {seg : Segment} {conns : Conns} (h : o ∈ (Tcp.rx srcIp seg conns).2) :
    Fits (segmentHanded o) := by
  simp only [Fits, tooLong, decide_eq_false_iff_not, segmentHanded, segmentBytes, length_take,
    length_segmentWith, sent_no_data h, length_nil, u16]
  omega

theorem tcpRx_replies (hin : base + length ≤ f.length)
    (h : tcpRx f src base length net = some (net', sent)) :
    Replies net net' sent (fun a => a = src ∧
      ∃ seg, tcpSegment f src base length = some seg ∧ Answered net.conns src seg) := by
  rw [tcpRx_eq hin] at h
  cases hseg : tcpSegment f src base length with
  | none =>
    rw [hseg] at h
    cases h
    refine replies_none rfl ?_
    rintro a ⟨-, seg, hseg', -⟩
    cases hseg'
  | some seg =>
    rw [hseg] at h
    cases h
    have hmem (d : Datagram) :
        d ∈ ((Tcp.rx src seg net.conns).2.map Sent.tcp).filterMap Sent.datagram ↔
          ∃ o ∈ (Tcp.rx src seg net.conns).2, d = segmentHanded o := by
      simp only [filterMap_map, mem_filterMap, Function.comp_apply, Sent.datagram,
        some.injEq, eq_comm]
    refine ⟨fun d hd => ⟨rfl, fun _ => ?_⟩, ?_⟩
    · rcases (hmem d).mp hd with ⟨o, ho, rfl⟩
      exact ⟨sent_to_source ho, seg, rfl,
        (sent_nonempty_iff src seg net.conns).mp (ne_nil_of_mem ho)⟩
    · rintro srcIp ⟨rfl, seg', hseg', hans⟩
      cases hseg'
      rcases exists_mem_of_ne_nil _ ((sent_nonempty_iff _ _ _).mpr hans) with ⟨o, ho⟩
      exact ⟨_, (hmem _).mpr ⟨o, ho, rfl⟩, fits_answer ho, sent_to_source ho⟩

/-- A packet is handed to its layer, which answers what calls for it. -/
theorem deliver_replies {protocol : Nat} (hin : base + length ≤ f.length)
    (h : deliver f src protocol base length net = some (net', sent)) :
    Replies net net' sent (fun a => a = src ∧ PacketCalls f net src protocol base length) := by
  unfold PacketCalls
  simp only [deliver] at h
  by_cases hicmp : protocol = IP_PROTO_ICMP
  · rw [if_pos hicmp] at h
    simp only [hicmp, show IP_PROTO_ICMP ≠ IP_PROTO_TCP by decide, true_and, false_and, or_false]
    exact icmpRx_replies hin h
  rw [if_neg hicmp] at h
  by_cases htcp : protocol = IP_PROTO_TCP
  · rw [if_pos htcp] at h
    simp only [htcp, show IP_PROTO_TCP ≠ IP_PROTO_ICMP by decide, true_and, false_and, false_or]
    exact tcpRx_replies hin h
  have hsent : sent = [] := by
    split_ifs at h
    · exact ((udpRx_returns hin).of_eq_some h).2
    · cases h
      rfl
  refine replies_none (by rw [hsent]; rfl) ?_
  simp only [hicmp, htcp, false_and, or_false, and_false, not_false_eq_true, implies_true]

end Layers

/-- What the receive path gives to `ipv4::send` is what the frame calls
    for. -/
theorem replies_of_rx (h : rx f net = some (net', sent)) :
    Replies net net' sent (CallsForReply f net) := by
  have hle : u16 f.length ≤ f.length := Nat.mod_le _ _
  rw [rx_eq] at h
  cases hp : ipPacket f with
  | none =>
    rw [hp] at h
    refine replies_none ?_ ?_
    · split_ifs at h with harp
      · exact ((arpRx_returns (by omega)).of_eq_some h).1
      · cases h
        rfl
    · rintro a ⟨_, _, _, hp', -⟩
      rw [hp] at hp'
      cases hp'
  | some r =>
    rcases r with ⟨src, protocol, base, length⟩
    rw [hp] at h
    -- A call for an answer is about this packet.
    have hcall : CallsForReply f net =
        fun a => a = src ∧ PacketCalls f net src protocol base length := by
      funext a
      refine propext ⟨?_, ?_⟩
      · rintro ⟨_, _, _, hp', hc⟩
        cases hp.symm.trans hp'
        exact ⟨rfl, hc⟩
      · rintro ⟨rfl, hc⟩
        exact ⟨_, _, _, hp, hc⟩
    rw [hcall]
    exact deliver_replies (ipPacket_inside hp) h

/-! ### Waiting -/

theorem sendNow_net {s t : SendStack} {d : Datagram} (h : sendNow s d = some t) :
    t.net = s.net := by
  unfold sendNow at h
  split_ifs at h
  · rw [← some.inj h]
  · rcases map_eq_some_iff.mp h with ⟨mac, -, rfl⟩
    rfl

theorem sendNow_isSome (s : SendStack) (d : Datagram) :
    (sendNow s d).isSome = true ↔
      (Fits d → (arpTableLookup (nextHop d.dstIp) s.net.arpTable).isSome = true) := by
  unfold sendNow Fits
  cases tooLong d with
  | true => simp only [if_true, isSome_some, Bool.true_eq_false, false_imp_iff]
  | false => simp only [Bool.false_eq_true, if_false, Option.isSome_map, forall_const]

/-- All answers are sent without waiting if each of them is. -/
theorem foldlM_sendNow_isSome (ds : List Datagram) (s : SendStack) :
    (ds.foldlM sendNow s).isSome = true ↔
      ∀ d ∈ ds, Fits d → (arpTableLookup (nextHop d.dstIp) s.net.arpTable).isSome = true := by
  induction ds generalizing s with
  | nil => exact ⟨fun _ d hd => absurd hd not_mem_nil, fun _ => rfl⟩
  | cons d ds ih =>
    rw [foldlM_cons, forall_mem_cons, ← sendNow_isSome]
    cases hs : sendNow s d with
    | none => simp only [Option.bind_eq_bind, bind_none, isSome_none,
        Bool.false_eq_true, false_and]
    | some t =>
      simp only [Option.bind_eq_bind, bind_some, isSome_some, true_and]
      rw [ih t, sendNow_net hs]

/-- The receive path does not wait exactly if the next hop to the source of
    every packet that it answers is in the ARP table. -/
theorem rxStep_isSome_iff (f : List UInt8) (s : SendStack) :
    (rxStep f s).isSome = true ↔
      ∀ srcIp, CallsForReply f s.net srcIp →
        (arpTableLookup (nextHop srcIp) s.net.arpTable).isSome = true := by
  rcases isSome_iff_exists.mp (rx_isSome f s.net) with ⟨⟨net', sent⟩, hrx⟩
  rcases replies_of_rx hrx with ⟨hof, hto⟩
  unfold rxStep
  rw [hrx, bind_some, foldlM_sendNow_isSome]
  constructor
  · intro h srcIp hc
    rcases hto srcIp hc with ⟨d, hd, hfit, rfl⟩
    have := h d hd hfit
    rwa [(hof d hd).1] at this
  · intro h d hd hfit
    rw [(hof d hd).1]
    exact h d.dstIp ((hof d hd).2 hfit)

/-- The send path after the start, with these entries at the front of the ARP
    table. -/
def booted (known : List ArpEntry) : SendStack where
  net :=
    { arpTable := fun i => (known[i.val]?).getD ⟨0, List.replicate 6 0, false⟩
      conns := fun _ => TcpConn.new
      bindTable := []
      icmpReply := ⟨false, 0, 0, 0⟩
      dns := ⟨0, false, 0, 0⟩ }
  ourMac := [0x52, 0x54, 0, 0x12, 0x34, 0x56]
  pktBuf := List.replicate 1500 0
  ipIdCounter := 0
  ticks := 0
  sending := none
  handed := []

/-- An echo request from the gateway, without data. -/
def pingFrame : List UInt8 :=
  [0x52, 0x54, 0, 0x12, 0x34, 0x56, 2, 2, 2, 2, 2, 2, 8, 0,
    0x45, 0, 0, 28, 0, 0, 0, 0, 64, 1, 0x62, 0xD1, 10, 0, 2, 2, 10, 0, 2, 15,
    8, 0, 0xF7, 0xFD, 0, 1, 0, 1]

/-- An echo request from a host that is not in the ARP table. The table is
    empty after the start and only ARP packets fill it. -/
theorem rx_waits : (rxStep pingFrame (booted [])).isSome = false := by
  rfl

end SysRust.Net
