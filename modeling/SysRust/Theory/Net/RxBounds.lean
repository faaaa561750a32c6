import SysRust.Core.Net.Send

/-!
# The Receive Path Stays Inside the Frame

No frame makes the receive path read past its end. Each layer is safe as
long as the length it is given does not reach beyond the frame, and each
layer hands the next one a length with that property, whatever the length
fields of the packet say.

The proofs follow the code read by read, and with the same steps they say
what the layer does. The only argument that is not of this kind is the one
for compressed names in DNS messages: a compression pointer may lead
anywhere, but every turn of the loop checks its offset against the length of
the message before it reads.

## Main definitions

* `ArpHandled`, `Unanswered`: What becomes of ARP, and of UDP packets.
* `EchoRequest`, `tcpSegment`: What ICMP and TCP look for in a packet.
* `Ipv4Header`, `Accepted`: A header, and which ones `ipv4::rx` accepts.
* `NameLength`: How many bytes a name takes where it stands.
* `Whole`: A packet that is well formed and not a fragment.

## Theorems

* `dnsSkipName_isSome`, `dnsSkipName_sound`: Skipping a name reads inside the
  message and answers its length there.
* `arpRx_returns`, `icmpRx_returns`, `tcpRx_eq`, `udpRx_returns`,
  `dnsRx_returns`, `ipv4Rx_header`: One result per layer.
* `rx_isSome`: The whole receive path.
* `handed_whole_iff`: When what is handed on is a whole packet.
-/

namespace SysRust.Net

open Tcp Option

variable {f : List UInt8} {base length srcIp : Nat} {net : Net}

/-! ### ARP -/

/-- No datagram is sent, and at most the address of the sender is entered. -/
def ArpHandled (f : List UInt8) (net net' : Net) (sent : List Sent) : Prop :=
  sent.filterMap Sent.datagram = [] ∧ (net'.arpTable = net.arpTable ∨
    ∃ ip off mac, bytesAt f off 6 = some mac ∧ net'.arpTable = arpTableUpdate ip mac net.arpTable)

/-- ARP packets are answered without IPv4. -/
theorem arpRx_returns (h : base + length ≤ f.length) :
    Returns (fun r => ArpHandled f net r.1 r.2) (arpRx f base length net) := by
  have hsame : ArpHandled f net net [] := ⟨rfl, Or.inl rfl⟩
  unfold arpRx
  refine .ite (fun _ => ⟨_, rfl, hsame⟩) (fun hlen => ?_)
  refine .bind (le16_isSome (by omega)) (fun hwType _ => ?_)
  refine .ite (fun _ => ⟨_, rfl, hsame⟩) (fun _ => ?_)
  refine .bind (le16_isSome (by omega)) (fun protoType _ => ?_)
  refine .ite (fun _ => ⟨_, rfl, hsame⟩) (fun _ => ?_)
  refine .bind (le16_isSome (by omega)) (fun opcode _ => ?_)
  refine .bind (be32_isSome (by omega)) (fun senderIp _ => ?_)
  refine .bind (be32_isSome (by omega)) (fun targetIp _ => ?_)
  refine .bind (bytesAt_isSome (by omega)) (fun senderMac hmac => ?_)
  refine .ite (fun _ => ?_) (fun _ => ?_)
  · exact ⟨_, rfl, rfl, Or.inr ⟨_, _, _, hmac, rfl⟩⟩
  · exact ⟨_, rfl, rfl, Or.inr ⟨_, _, _, hmac, rfl⟩⟩

theorem checksum_isSome (h : base + length ≤ f.length) : (checksum f base length).isSome = true :=
  isSome_map (bytesAt_isSome h)

/-! ### ICMP -/

/-- The payload is an echo request with a valid checksum. -/
def EchoRequest (f : List UInt8) (base length : Nat) : Prop :=
  8 ≤ length ∧ checksum f base length = some 0 ∧ byteAt f base = some ICMP_ECHO_REQUEST ∧
    byteAt f (base + 1) = some 0

theorem length_echoReply (bs : List UInt8) : (echoReply bs).length = bs.length := by
  simp only [echoReply, List.length_set]

/-- The ICMP layer answers echo requests. -/
theorem icmpRx_returns (h : base + length ≤ f.length) :
    Returns (fun r => r.1.arpTable = net.arpTable ∧
      ((EchoRequest f base length ∧ length ≤ 1500 ∧
          ∃ payload, payload.length = length ∧ r.2 = [.icmp srcIp payload]) ∨
        (¬(EchoRequest f base length ∧ length ≤ 1500) ∧ r.2 = [])))
      (icmpRx f srcIp base length net) := by
  unfold icmpRx
  refine .ite (fun hlen => ?_) (fun hlen => ?_)
  · exact ⟨_, rfl, rfl, Or.inr ⟨fun h' => Nat.not_lt.mpr h'.1.1 hlen, rfl⟩⟩
  refine .bind (checksum_isSome h) (fun sum hsum => ?_)
  refine .ite (fun hbad => ?_) (fun hzero => ?_)
  · refine ⟨_, rfl, rfl, Or.inr ⟨fun h' => hbad ?_, rfl⟩⟩
    exact some.inj (hsum.symm.trans h'.1.2.1)
  refine .bind (byteAt_isSome (by omega)) (fun type htype => ?_)
  refine .bind (byteAt_isSome (by omega)) (fun code hcode => ?_)
  have hecho : EchoRequest f base length ↔ type = ICMP_ECHO_REQUEST ∧ code = 0 := by
    unfold EchoRequest
    rw [hsum, htype, hcode, not_not.mp hzero]
    simp only [some.injEq, true_and]
    exact ⟨fun h' => h'.2, fun h' => ⟨by omega, h'⟩⟩
  refine .ite (fun hreq => ?_) (fun hreq => ?_)
  · refine .ite (fun hlong => ?_) (fun hlong => ?_)
    · exact ⟨_, rfl, rfl, Or.inr ⟨fun h' => Nat.not_lt.mpr h'.2 hlong, rfl⟩⟩
    · refine .bind (bytesAt_isSome h) (fun bs hbs => ?_)
      refine ⟨_, rfl, rfl, Or.inl ⟨hecho.mpr hreq, by omega, echoReply bs, ?_, rfl⟩⟩
      rw [length_echoReply, length_bytesAt hbs]
  have hno : ¬(EchoRequest f base length ∧ length ≤ 1500) := fun h' => hreq (hecho.mp h'.1)
  refine .ite (fun _ => ?_) (fun _ => ⟨_, rfl, rfl, Or.inr ⟨hno, rfl⟩⟩)
  refine .bind (le16_isSome (by omega)) (fun identifier _ => ?_)
  exact .bind (le16_isSome (by omega)) (fun sequence _ => ⟨_, rfl, rfl, Or.inr ⟨hno, rfl⟩⟩)

/-! ### TCP -/

/-- The payload as a TCP segment, if its checksum and header are valid. -/
def tcpSegment (f : List UInt8) (srcIp base length : Nat) : Option Segment :=
  if length < 20 then none
  else do
    let sum ← tcpChecksum f srcIp NET_IP_ADDR base length
    let srcPort ← le16 f base
    let dstPort ← le16 f (base + 2)
    let flags ← byteAt f (base + 13)
    let seq ← le32 f (base + 4)
    let ack ← le32 f (base + 8)
    let dataOffset ← byteAt f (base + 12)
    let hdrLen := u8 ((dataOffset >>> 4) * 4)
    if sum = 0 ∧ 20 ≤ hdrLen ∧ hdrLen ≤ length then
      (bytesAt f (base + hdrLen) (length - hdrLen)).map (fun payload =>
        { srcPort := ntohs srcPort, dstPort := ntohs dstPort, seq := ntohl seq, ack := ntohl ack,
          flags := BitVec.ofNat 8 flags, payload := payload })
    else none

theorem tcpChecksum_isSome (srcIp dstIp : Nat) (h : base + length ≤ f.length) :
    (tcpChecksum f srcIp dstIp base length).isSome = true :=
  isSome_ite (fun _ => rfl) (fun _ => isSome_map (bytesAt_isSome h))

/-- The TCP layer hands valid segments to the connections. The header length
    a segment claims is compared with its length before the payload is
    touched. -/
theorem tcpRx_eq (h : base + length ≤ f.length) (net : Net) :
    tcpRx f srcIp base length net = match tcpSegment f srcIp base length with
      | some seg => some ({ net with conns := (Tcp.rx srcIp seg net.conns).1 },
          (Tcp.rx srcIp seg net.conns).2.map .tcp)
      | none => some (net, []) := by
  unfold tcpRx tcpSegment
  by_cases hlen : length < 20
  · rw [if_pos hlen, if_pos hlen]
  rw [if_neg hlen, if_neg hlen]
  obtain ⟨sum, hsum⟩ := isSome_iff_exists.mp (tcpChecksum_isSome srcIp NET_IP_ADDR h)
  obtain ⟨srcPort, hsp⟩ := le16_some (f := f) (i := base) (by omega)
  obtain ⟨dstPort, hdp⟩ := le16_some (f := f) (i := base + 2) (by omega)
  obtain ⟨flags, hfl⟩ := byteAt_some (f := f) (i := base + 13) (by omega)
  obtain ⟨seq, hsq⟩ := le32_some (f := f) (i := base + 4) (by omega)
  obtain ⟨ack, hak⟩ := le32_some (f := f) (i := base + 8) (by omega)
  obtain ⟨dataOffset, hoff⟩ := byteAt_some (f := f) (i := base + 12) (by omega)
  simp only [hsum, hsp, hdp, hfl, hsq, hak, hoff, bind_eq_bind, bind_some]
  by_cases hzero : sum = 0
  swap
  · rw [if_pos hzero, if_neg (fun h' => hzero h'.1)]
  rw [if_neg (not_not.mpr hzero)]
  by_cases hhdr : u8 ((dataOffset >>> 4) * 4) < 20 ∨ u8 ((dataOffset >>> 4) * 4) > length
  · rw [if_pos hhdr, if_neg (by omega)]
  · rw [if_neg hhdr, if_pos ⟨hzero, by omega⟩]
    obtain ⟨payload, hpay⟩ := isSome_iff_exists.mp (bytesAt_isSome (f := f)
      (i := base + u8 ((dataOffset >>> 4) * 4)) (n := length - u8 ((dataOffset >>> 4) * 4))
      (by omega))
    rw [hpay]
    rfl

/-! ### DNS -/

/-- Skipping a name reads inside the message, wherever its pointers lead. -/
theorem dnsSkipName_isSome (h : base + length ≤ f.length) (start off : Nat)
    (jumped : Option Nat) (hops : Nat) :
    (dnsSkipName f base length start off jumped hops).isSome = true := by
  -- Along the recursion of the walk: a pointer is one hop, a label an advance.
  induction off, jumped, hops using dnsSkipName.induct length start with
  | case1 off jumped hops hoff hjump hlabel =>
    rw [dnsSkipName, dif_pos hoff]
    refine isSome_bind (byteAt_isSome (by omega)) (fun b _ => ?_)
    refine isSome_ite (fun _ => rfl) (fun _ => ?_)
    refine isSome_ite (fun _ => ?_) (fun _ => hlabel b)
    by_cases hhops : hops + 1 > 64
    · rw [dif_pos hhops]
      rfl
    · rw [dif_neg hhops]
      refine isSome_ite (fun _ => rfl) (fun hroom => ?_)
      refine isSome_bind (byteAt_isSome (by omega)) (fun low _ => ?_)
      exact hjump b hhops low
  | case2 off jumped hops hoff =>
    rw [dnsSkipName, dif_neg hoff]
    rfl

/-- The name at an index takes that many bytes there: up to its zero byte, or
    up to the second byte of its first compression pointer. -/
inductive NameLength (pkt : List UInt8) : Nat → Nat → Prop
  | zero {off : Nat} : byteAt pkt off = some 0 → NameLength pkt off 1
  | pointer {off b low : Nat} : byteAt pkt off = some b → b &&& 0xC0 = 0xC0 →
      byteAt pkt (off + 1) = some low → NameLength pkt off 2
  | label {off b n : Nat} : byteAt pkt off = some b → b ≠ 0 → b &&& 0xC0 ≠ 0xC0 →
      NameLength pkt (off + 1 + b) n → NameLength pkt off (1 + b + n)

/-- A name is not empty and lies inside the message. -/
theorem NameLength.inside {pkt : List UInt8} {off n : Nat} (h : NameLength pkt off n) :
    1 ≤ n ∧ off + n ≤ pkt.length := by
  induction h with
  | zero hb => exact ⟨le_rfl, lt_of_byteAt hb⟩
  | pointer _ _ hlow => exact ⟨by omega, lt_of_byteAt hlow⟩
  | label _ _ _ _ ih => omega

/-- What the walk answers: the length at the first pointer if it has followed
    one, and otherwise the way from the start plus the length from here. -/
theorem dnsSkipName_length {pkt : List UInt8} {start off n hops : Nat} {jumped : Option Nat}
    (hstart : jumped = none → start ≤ off)
    (h : dnsSkipName pkt 0 length start off jumped hops = some (some n)) :
    ∃ k, NameLength pkt off k ∧ n = jumped.getD (off - start + k) := by
  induction off, jumped, hops using dnsSkipName.induct length start with
  | case1 off jumped hops hoff hjump hlabel =>
    rw [dnsSkipName, dif_pos hoff] at h
    obtain ⟨b, hb, h⟩ := bind_eq_some_iff.mp h
    rw [Nat.zero_add] at hb h
    by_cases hzero : b = 0
    · rw [if_pos hzero] at h
      exact ⟨1, .zero (hzero ▸ hb), by simpa using h.symm⟩
    rw [if_neg hzero] at h
    by_cases hptr : b &&& 0xC0 = 0xC0
    · rw [if_pos hptr] at h
      -- Past a pointer the count stands, wherever the rest of the name is.
      by_cases hhops : hops + 1 > 64
      · rw [dif_pos hhops] at h
        cases h
      rw [dif_neg hhops] at h
      by_cases hroom : off + 1 ≥ length
      · rw [if_pos hroom] at h
        cases h
      rw [if_neg hroom] at h
      obtain ⟨low, hlow, h⟩ := bind_eq_some_iff.mp h
      obtain ⟨_, _, hn⟩ := hjump b hhops low (fun h' => nomatch h') h
      exact ⟨2, .pointer hb hptr hlow, hn⟩
    · rw [if_neg hptr] at h
      obtain ⟨k, hk, hn⟩ := hlabel b (fun h' => by have := hstart h'; omega) h
      refine ⟨1 + b + k, .label hb hzero hptr hk, hn.trans ?_⟩
      cases jumped with
      | none =>
        have hle := hstart rfl
        show off + 1 + b - start + k = off - start + (1 + b + k)
        omega
      | some m => rfl
  | case2 off jumped hops hoff =>
    rw [dnsSkipName, dif_neg hoff] at h
    cases h

/-- Skipping a name ends on every message and for every offset, without a read
    past the message, and its answer is the length of the name, which lies in
    the message. Lengths of messages have 16 bits, so no sum of the code's
    `i32` values wraps. -/
theorem dnsSkipName_sound (pkt : List UInt8) (offset : Nat) :
    ∃ r, dnsSkipName pkt 0 pkt.length offset offset none 0 = some r ∧
      ∀ n, r = some n → 1 ≤ n ∧ offset + n ≤ pkt.length ∧ NameLength pkt offset n := by
  have hin : 0 + pkt.length ≤ pkt.length := by omega
  obtain ⟨r, hr⟩ := isSome_iff_exists.mp (dnsSkipName_isSome hin offset offset none 0)
  refine ⟨r, hr, fun n hn => ?_⟩
  obtain ⟨k, hk, hnk⟩ := dnsSkipName_length (fun _ => le_rfl) (hn ▸ hr)
  rw [getD_none, Nat.sub_self, Nat.zero_add] at hnk
  rw [hnk]
  exact ⟨hk.inside.1, hk.inside.2, hk⟩

theorem be16_isSome {i : Nat} (h : i + 1 < f.length) : (be16 f i).isSome = true :=
  isSome_bind (byteAt_isSome (by omega)) (fun _ _ => isSome_map (byteAt_isSome h))

theorem dnsSkipQuestions_isSome (h : base + length ≤ f.length) (n offset : Nat) :
    (dnsSkipQuestions f base length n offset).isSome = true := by
  induction n generalizing offset with
  | zero => rfl
  | succ n ih =>
    refine isSome_bind (dnsSkipName_isSome h offset offset none 0) (fun r _ => ?_)
    cases r with
    | none => rfl
    | some skip => exact isSome_ite (fun _ => rfl) (fun _ => ih _)

theorem dnsFindAnswer_isSome (h : base + length ≤ f.length) (n offset : Nat) :
    (dnsFindAnswer f base length n offset).isSome = true := by
  induction n generalizing offset with
  | zero => rfl
  | succ n ih =>
    refine isSome_bind (dnsSkipName_isSome h offset offset none 0) (fun r _ => ?_)
    cases r with
    | none => rfl
    | some skip =>
      refine isSome_ite (fun _ => rfl) (fun hfixed => ?_)
      refine isSome_bind (be16_isSome (by omega)) (fun rtype _ => ?_)
      refine isSome_bind (be16_isSome (by omega)) (fun rclass _ => ?_)
      refine isSome_bind (be16_isSome (by omega)) (fun rdlength _ => ?_)
      refine isSome_ite (fun _ => rfl) (fun hdata => ?_)
      refine isSome_ite (fun ha => ?_) (fun _ => ih _)
      exact isSome_map (be32_isSome (by omega))

/-- Nothing is sent, and the ARP table stays as it is. -/
def Unanswered (net net' : Net) (sent : List Sent) : Prop :=
  net'.arpTable = net.arpTable ∧ sent = []

theorem dnsRx_returns (h : base + length ≤ f.length) :
    Returns (fun r => Unanswered net r.1 r.2) (dnsRx f base length net) := by
  have hsame : Unanswered net net [] := ⟨rfl, rfl⟩
  unfold dnsRx
  refine .ite (fun _ => ⟨_, rfl, hsame⟩) (fun hlen => ?_)
  refine .bind (le16_isSome (by omega)) (fun id _ => ?_)
  refine .bind (le16_isSome (by omega)) (fun flags _ => ?_)
  refine .bind (le16_isSome (by omega)) (fun qdcount _ => ?_)
  refine .bind (le16_isSome (by omega)) (fun ancount _ => ?_)
  refine .ite (fun _ => ⟨_, rfl, hsame⟩) (fun _ => ?_)
  refine .ite (fun _ => ⟨_, rfl, hsame⟩) (fun _ => ?_)
  refine .bind (dnsSkipQuestions_isSome h _ _) (fun r _ => ?_)
  cases r with
  | none => exact ⟨_, rfl, hsame⟩
  | some offset =>
    refine .bind (dnsFindAnswer_isSome h _ _) (fun answer _ => ?_)
    cases answer with
    | none => exact ⟨_, rfl, hsame⟩
    | some ip => exact ⟨_, rfl, rfl, rfl⟩

/-! ### UDP, IPv4 and Ethernet -/

/-- UDP packets are not answered. -/
theorem udpRx_returns (h : base + length ≤ f.length) :
    Returns (fun r => Unanswered net r.1 r.2) (udpRx f base length net) := by
  have hsame : Unanswered net net [] := ⟨rfl, rfl⟩
  unfold udpRx
  refine .ite (fun _ => ⟨_, rfl, hsame⟩) (fun hlen => ?_)
  refine .bind (le16_isSome (by omega)) (fun dstPort _ => ?_)
  refine .bind (le16_isSome (by omega)) (fun len _ => ?_)
  refine .ite (fun _ => ⟨_, rfl, hsame⟩) (fun hudp => ?_)
  cases findHandler net.bindTable (ntohs dstPort) with
  | none => exact ⟨_, rfl, hsame⟩
  | some handler =>
    cases handler with
    | dnsRx => exact .bind (le16_isSome (by omega)) (fun _ _ => dnsRx_returns (by omega))

/-- Hand the payload to the protocol it is for. -/
def deliver (f : List UInt8) (srcIp protocol base length : Nat) (net : Net) : Result :=
  if protocol = IP_PROTO_ICMP then icmpRx f srcIp base length net
  else if protocol = IP_PROTO_TCP then tcpRx f srcIp base length net
  else if protocol = IP_PROTO_UDP then udpRx f base length net
  else some (net, [])

/-- No protocol touches the ARP table. -/
theorem deliver_table {protocol : Nat} (h : base + length ≤ f.length) :
    Returns (fun r => r.1.arpTable = net.arpTable)
      (deliver f srcIp protocol base length net) := by
  unfold deliver
  refine .ite (fun _ => (icmpRx_returns h).mono (fun _ hr => hr.1)) (fun _ => ?_)
  refine .ite (fun _ => ?_) (fun _ => ?_)
  · rw [tcpRx_eq h]
    cases tcpSegment f srcIp base length <;> exact ⟨_, rfl, rfl⟩
  · exact .ite (fun _ => (udpRx_returns h).mono (fun _ hr => hr.1)) (fun _ => ⟨_, rfl, rfl⟩)

/-- The fields of an IPv4 header. The fragment field is never looked at. -/
structure Ipv4Header where
  versionIhl : Nat
  totalLength : Nat
  flagsFragment : Nat
  protocol : Nat
  srcIp : Nat
  dstIp : Nat

def Ipv4Header.hdrLen (r : Ipv4Header) : Nat := (r.versionIhl &&& 0x0F) * 4

/-- The header of a packet, if it is long enough for one. -/
def ipv4Header (f : List UInt8) (base length : Nat) : Option Ipv4Header :=
  if length < 20 then none
  else do
    let versionIhl ← byteAt f base
    let len ← le16 f (base + 2)
    let fragment ← le16 f (base + 6)
    let protocol ← byteAt f (base + 9)
    let srcIp ← le32 f (base + 12)
    let dstIp ← le32 f (base + 16)
    some ⟨versionIhl, ntohs len, ntohs fragment, protocol, ntohl srcIp, ntohl dstIp⟩

/-- What `ipv4::rx` checks. -/
structure Accepted (f : List UInt8) (base length : Nat) (r : Ipv4Header) : Prop where
  version : r.versionIhl >>> 4 = 4
  total : r.totalLength ≤ length
  header : r.hdrLen ≤ r.totalLength
  sum : checksum f base r.hdrLen = some 0
  dest : r.dstIp = NET_IP_ADDR ∨ r.dstIp = 0xFFFFFFFF

theorem ipv4Header_isSome (h : base + length ≤ f.length) (hlen : ¬length < 20) :
    (ipv4Header f base length).isSome = true := by
  rw [ipv4Header, if_neg hlen]
  refine isSome_bind (byteAt_isSome (by omega)) (fun _ _ => ?_)
  refine isSome_bind (le16_isSome (by omega)) (fun _ _ => ?_)
  refine isSome_bind (le16_isSome (by omega)) (fun _ _ => ?_)
  refine isSome_bind (byteAt_isSome (by omega)) (fun _ _ => ?_)
  refine isSome_bind (le32_isSome (by omega)) (fun _ _ => ?_)
  exact isSome_bind (le32_isSome (by omega)) (fun _ _ => rfl)

/-- A packet is passed on if it is accepted, and dropped otherwise. -/
theorem ipv4Rx_header {r : Ipv4Header} (hin : base + length ≤ f.length)
    (h : ipv4Header f base length = some r) (net : Net) :
    (Accepted f base length r → ipv4Rx f base length net =
      deliver f r.srcIp r.protocol (base + r.hdrLen) (r.totalLength - r.hdrLen) net) ∧
    (¬Accepted f base length r → ipv4Rx f base length net = some (net, [])) := by
  unfold ipv4Header at h
  split_ifs at h with hlen
  simp only [bind_eq_bind, bind_eq_some_iff, some.injEq] at h
  rcases h with ⟨v, hv, len, hl, _, -, proto, hp, src, hs, dst, hd, rfl⟩
  simp only [ipv4Rx, if_neg hlen, hv, hl, hd, hp, hs, bind_some]
  by_cases hver : v >>> 4 = 4
  swap
  · rw [if_pos hver]
    exact ⟨fun h => absurd h.version hver, fun _ => rfl⟩
  rw [if_neg (not_not.mpr hver)]
  by_cases hfit : length < ntohs len ∨ ntohs len < (v &&& 0x0F) * 4
  · rw [if_pos hfit]
    refine ⟨fun h => absurd hfit (not_or.mpr ⟨?_, ?_⟩), fun _ => rfl⟩
    · exact Nat.not_lt.mpr h.total
    · exact Nat.not_lt.mpr h.header
  rw [if_neg hfit]
  -- The header lies inside the frame, so its checksum can be computed.
  have hinside : base + (v &&& 0x0F) * 4 ≤ f.length := by omega
  rcases isSome_iff_exists.mp (checksum_isSome hinside) with ⟨sum, hsum⟩
  rw [hsum, bind_some]
  by_cases hzero : sum = 0
  swap
  · rw [if_pos hzero]
    exact ⟨fun h => absurd (some.inj (hsum.symm.trans h.sum)) hzero, fun _ => rfl⟩
  rw [if_neg (not_not.mpr hzero)]
  by_cases hother : ntohl dst ≠ NET_IP_ADDR ∧ ntohl dst ≠ 0xFFFFFFFF
  · rw [if_pos hother]
    exact ⟨fun h => absurd h.dest (not_or.mpr hother), fun _ => rfl⟩
  · rw [if_neg hother]
    refine ⟨fun _ => rfl, fun hnot => absurd ⟨hver, ?_, ?_, hzero ▸ hsum, ?_⟩ hnot⟩
    · exact Nat.not_lt.mp (not_or.mp hfit).1
    · exact Nat.not_lt.mp (not_or.mp hfit).2
    · exact or_iff_not_and_not.mpr hother

/-- The header length may be anything up to 60, but the total length is at
    least that and at most what was received. -/
theorem Accepted.inside {r : Ipv4Header} (hacc : Accepted f base length r)
    (h : base + length ≤ f.length) :
    base + r.hdrLen + (r.totalLength - r.hdrLen) ≤ f.length := by
  have htotal := hacc.total
  have hheader := hacc.header
  omega

theorem ipv4Rx_isSome (h : base + length ≤ f.length) :
    (ipv4Rx f base length net).isSome = true := by
  by_cases hlen : length < 20
  · rw [ipv4Rx, if_pos hlen]
    rfl
  obtain ⟨r, hr⟩ := isSome_iff_exists.mp (ipv4Header_isSome h hlen)
  by_cases hacc : Accepted f base length r
  · rw [(ipv4Rx_header h hr net).1 hacc]
    exact (deliver_table (hacc.inside h)).isSome
  · rw [(ipv4Rx_header h hr net).2 hacc]
    rfl

/-- For every frame and every state of the protocols, every byte the receive
    path reads lies inside the frame. -/
theorem rx_isSome (f : List UInt8) (net : Net) : (rx f net).isSome = true := by
  have hle : u16 f.length ≤ f.length := Nat.mod_le _ _
  unfold rx
  refine isSome_ite (fun _ => rfl) (fun hlen => ?_)
  refine isSome_bind (le16_isSome (by omega)) (fun ethertype _ => ?_)
  refine isSome_ite (fun _ => (arpRx_returns (by omega)).isSome) (fun _ => ?_)
  exact isSome_ite (fun _ => ipv4Rx_isSome (by omega)) (fun _ => rfl)

/-! ### Whole datagrams -/

/-- A well-formed datagram that is not a fragment. -/
structure Whole (p : List UInt8) (r : Ipv4Header) : Prop extends Accepted p 0 p.length r where
  minHeader : 20 ≤ r.hdrLen
  unfragmented : r.flagsFragment &&& 0x3FFF = 0

/-- The packet is handed to one of the protocols. -/
def HandedOn (p : List UInt8) (r : Ipv4Header) : Prop :=
  Accepted p 0 p.length r ∧ r.protocol ∈ [IP_PROTO_ICMP, IP_PROTO_TCP, IP_PROTO_UDP]

/-- Only whole datagrams are handed on, apart from fragments and from headers
    that are shorter than a header can be. -/
theorem handed_whole_iff (p : List UInt8) :
    match ipv4Header p 0 p.length with
    | none => ∀ net, ipv4Rx p 0 p.length net = some (net, [])
    | some r =>
      (∀ net, (Accepted p 0 p.length r → ipv4Rx p 0 p.length net =
          deliver p r.srcIp r.protocol (0 + r.hdrLen) (r.totalLength - r.hdrLen) net) ∧
        (¬Accepted p 0 p.length r → ipv4Rx p 0 p.length net = some (net, []))) ∧
      ((HandedOn p r → Whole p r) ↔
        (HandedOn p r → 20 ≤ r.hdrLen ∧ r.flagsFragment &&& 0x3FFF = 0)) := by
  by_cases hlen : p.length < 20
  · rw [ipv4Header, if_pos hlen]
    exact fun net => if_pos hlen
  · have hin : 0 + p.length ≤ p.length := (Nat.zero_add _).le
    rcases isSome_iff_exists.mp (ipv4Header_isSome hin hlen) with ⟨r, hr⟩
    rw [hr]
    refine ⟨ipv4Rx_header hin hr, fun h hon => ?_, fun h hon => ?_⟩
    · exact ⟨(h hon).minHeader, (h hon).unfragmented⟩
    · exact ⟨hon.1, (h hon).1, (h hon).2⟩

/-- The first fragment of a UDP packet. -/
def fragment : List UInt8 :=
  [0x45, 0, 0, 20, 0, 0, 0x20, 0, 64, 17, 0x42, 0xC9, 10, 0, 2, 2, 10, 0, 2, 15]

theorem fragment_handed :
    ∃ r, ipv4Header fragment 0 20 = some r ∧ HandedOn fragment r ∧ ¬Whole fragment r :=
  ⟨_, rfl, ⟨⟨by decide, by decide, by decide, by decide, by decide⟩, by decide⟩,
    fun h => absurd h.unfragmented (by decide)⟩

end SysRust.Net
