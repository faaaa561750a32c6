import SysRust.Theory.Net.Checksum
import SysRust.Theory.Net.Replies

/-!
# Limits of the TCP Layer

The checksum of a segment is computed in a buffer, and a segment that is too
long for it counts as verified. Most additions to sequence numbers wrap
around; those to the sequence number of an incoming segment are plain ones.
`tcp::send` does not learn what became of its segment: it counts the data as
sent and returns 0 also when the segment was dropped.

## Main definitions

* `NoCarry`: No plain addition overflows for a connection.
* `Ignored`: Nothing is done with a segment.
* `CarriesData`: A packet is a segment with this data.
* `Open`: The connection that data can be sent on.

## Theorems

* `rxPlain_fits_iff`: Which segments overflow no plain operation.
* `rx_ignored_iff`: Which segments change nothing.
* `tcpRx_unverified_iff`: When a segment that does not verify is dropped.
* `tcpSend_on_wire_iff`: When a send that succeeds is on the wire.
-/

namespace SysRust.Tcp

/-! ### Plain additions -/

/-- No plain addition overflows for the connection. -/
def NoCarry (seg : Segment) (c : TcpConn) : Prop :=
  match c.state with
  | .established => seg.payload = [] ∨ c.rxHead + 1 < 2 ^ 16
  | _ => Expected seg c → seg.seq + 1 < 2 ^ 32

theorem pushPlain_fits (bs : List UInt8) {c : TcpConn} (h : c.rxHead + 1 < 2 ^ 16) :
    ∀ p ∈ pushPlain bs c, p.Fits = true := by
  induction bs generalizing c with
  | nil => exact List.forall_mem_nil _
  | cons b bs ih =>
    refine List.forall_mem_cons.mpr ⟨decide_eq_true h, ?_⟩
    split_ifs
    · exact List.forall_mem_nil _
    · refine ih ?_
      have hlt := Nat.mod_lt (u16 (c.rxHead + 1)) (show TCP_RX_BUF_SIZE > 0 by decide)
      simp only [TCP_RX_BUF_SIZE] at hlt ⊢
      omega

/-- By the state, the additions that can overflow. -/
theorem rxConnPlain_fits_iff {seg : Segment} (hr : hasFlag seg.flags TCP_RST = false)
    (c : TcpConn) : (∀ p ∈ rxConnPlain seg c, p.Fits = true) ↔ NoCarry seg c := by
  unfold rxConnPlain NoCarry Expected
  rw [hr, if_neg Bool.false_ne_true]
  cases c.state with
  | established =>
    cases seg.payload with
    | nil => exact iff_of_true (List.forall_mem_nil _) (Or.inl rfl)
    | cons b bs =>
      refine ⟨fun h => Or.inr ?_, fun h => pushPlain_fits _ (h.resolve_left ?_)⟩
      · exact of_decide_eq_true (h _ List.mem_cons_self)
      · exact List.cons_ne_nil b bs
  | timeWait | closed => exact iff_of_true (List.forall_mem_nil _) False.elim
  | synSent | finWait1 | finWait2 =>
    simp only
    split_ifs <;> simp_all [Plain.Fits]

/-- No plain operation overflows, apart from the additions to the sequence
    number of the segment. -/
theorem rxPlain_fits_iff (srcIp : Nat) (dataOffset : UInt8) (length : UInt16) (seg : Segment)
    (conns : Conns) :
    (∀ p ∈ rxPlain srcIp dataOffset.toNat length.toNat seg conns, p.Fits = true) ↔
      (20 ≤ (dataOffset.toNat >>> 4) * 4 ∧ (dataOffset.toNat >>> 4) * 4 ≤ length.toNat →
        hasFlag seg.flags TCP_RST = false →
        match tcpFindConn conns srcIp seg.srcPort seg.dstPort with
        | none => hasFlag seg.flags TCP_ACK = false → seg.seq + seg.payload.length < 2 ^ 32
        | some i => NoCarry seg (conns i)) := by
  have hoff := dataOffset.toNat_lt
  have hlen := length.toNat_lt
  have hhdr : (Plain.up ((dataOffset.toNat >>> 4) * 4) 8).Fits = true := by
    rw [Plain.Fits, decide_eq_true_eq, Nat.shiftRight_eq_div_pow]
    omega
  unfold rxPlain
  rw [List.forall_mem_cons, and_iff_right hhdr]
  by_cases hin : (dataOffset.toNat >>> 4) * 4 < 20 ∨ (dataOffset.toNat >>> 4) * 4 > length.toNat
  · rw [if_pos hin]
    exact iff_of_true (List.forall_mem_nil _) (fun h => by omega)
  have hsub : (Plain.down length.toNat ((dataOffset.toNat >>> 4) * 4)).Fits = true := by
    rw [Plain.Fits, decide_eq_true_eq]
    omega
  rw [if_neg hin, List.forall_mem_cons, and_iff_right hsub, imp_iff_right (by omega)]
  cases hr : hasFlag seg.flags TCP_RST with
  | true =>
    refine iff_of_true ?_ (fun h => absurd h.symm Bool.false_ne_true)
    split
    · exact List.forall_mem_nil _
    · rw [rxConnPlain, if_pos hr]
      exact List.forall_mem_nil _
  | false =>
    rw [imp_iff_right rfl]
    cases tcpFindConn conns srcIp seg.srcPort seg.dstPort with
    | none => simp [Plain.Fits]
    | some i => exact rxConnPlain_fits_iff hr (conns i)

/-- The gateway answers a SYN with the highest sequence number. -/
theorem rxPlain_overflow :
    ¬∀ p ∈ rxPlain 0x0A000202 0x50 20
      { srcPort := 80, dstPort := 49152, seq := 2 ^ 32 - 1, ack := 2, flags := TCP_SYN ||| TCP_ACK,
        payload := [] }
      (Function.update (fun _ => TcpConn.new) ⟨0, by decide⟩ (synConn 0x0A000202 80 49152 0)),
        p.Fits = true := by
  decide

/-! ### Checksums -/

/-- Nothing is done with the segment. -/
def Ignored (conns : Conns) (srcIp : Nat) (seg : Segment) : Prop :=
  match tcpFindConn conns srcIp seg.srcPort seg.dstPort with
  | none => hasFlag seg.flags TCP_RST = true
  | some i => hasFlag seg.flags TCP_RST = false ∧ ¬Expected seg (conns i) ∧
      ¬((conns i).state = .finWait1 ∧ hasFlag seg.flags TCP_ACK = true)

theorem rx_ignored_iff (srcIp : Nat) (seg : Segment) (conns : Conns) :
    rx srcIp seg conns = (conns, []) ↔ Ignored conns srcIp seg := by
  unfold rx Ignored
  cases hfind : tcpFindConn conns srcIp seg.srcPort seg.dstPort with
  | none =>
    simp only [Prod.mk.injEq, true_and]
    rw [← not_iff_not, ← ne_eq, rxReset_ne_nil, Bool.not_eq_true]
  | some i =>
    simp only [Prod.mk.injEq, Function.update_eq_self_iff]
    rcases rxConn_cases seg (conns i) with ⟨hr, h0⟩ | ⟨hr, hs⟩
    · -- A reset frees the slot, which was in use.
      have huse := (matches_iff.mp (tcpFindConn_eq_some.mp hfind).1).1
      refine iff_of_false (fun h => ?_) (fun h => absurd (h.1.symm.trans hr) Bool.false_ne_true)
      rw [h0] at h
      exact absurd ((congrArg TcpConn.inUse h.1).trans huse) Bool.false_ne_true
    · rw [← Prod.mk.injEq, hs.ignored, and_iff_right hr]

end SysRust.Tcp

namespace SysRust.Net

open Tcp

/-- The segment behind the pseudo-header of its checksum. -/
def withPseudo (srcIp : Nat) (p : List UInt8) : List UInt8 :=
  be32Bytes srcIp ++ be32Bytes NET_IP_ADDR ++
    [0, 6, UInt8.ofNat (p.length / 2 ^ 8), UInt8.ofNat p.length] ++ p

theorem tcpRx_ignored_iff (srcIp : Nat) (p : List UInt8) (net : Net) :
    tcpRx p srcIp 0 p.length net = some (net, []) ↔
      ∀ seg, tcpSegment p srcIp 0 p.length = some seg → Ignored net.conns srcIp seg := by
  rw [tcpRx_eq (Nat.zero_add _).le]
  cases tcpSegment p srcIp 0 p.length with
  | none => exact iff_of_true rfl nofun
  | some seg =>
    simp only [Option.some.injEq, forall_eq', ← rx_ignored_iff, List.map_eq_nil_iff, Prod.ext_iff]
    cases net
    simp only [Net.mk.injEq, true_and, and_true]

/-- A segment whose checksum does not verify is dropped exactly if it is not
    too long for the buffer of the checksum, or if nothing is done with it
    anyway. -/
theorem tcpRx_unverified_iff (srcIp : Nat) (p : List UInt8) (net : Net) :
    (rfc1071 (withPseudo srcIp p) ≠ 0 → tcpRx p srcIp 0 p.length net = some (net, [])) ↔
      (p.length ≤ 1480 ∨ rfc1071 (withPseudo srcIp p) = 0 ∨
        ∀ seg, tcpSegment p srcIp 0 p.length = some seg → Ignored net.conns srcIp seg) := by
  by_cases hfit : p.length ≤ 1480
  · refine iff_of_true (fun hbad => ?_) (Or.inl hfit)
    have hlen : (withPseudo srcIp p).length ≤ 65535 := by
      simp only [withPseudo, be32Bytes, List.length_append, List.length_cons, List.length_nil]
      omega
    have hsum : tcpChecksum p srcIp NET_IP_ADDR 0 p.length =
        some (checksumBytes (withPseudo srcIp p)) := by
      rw [tcpChecksum, if_neg (by omega), bytesAt_eq (Nat.zero_add _).le, List.drop_zero,
        List.take_length]
      rfl
    rw [tcpRx, hsum, Option.bind_some,
      if_pos (fun h => hbad ((checksumBytes_eq_zero_iff hlen).mp h)), ite_self]
  · rw [tcpRx_ignored_iff, or_iff_right hfit, or_iff_not_imp_left]

/-- A reset from the gateway, without a checksum. -/
def resetHeader : List UInt8 := [0, 80, 0xC0, 0, 0, 0, 0, 0, 0, 0, 0, 0, 0x50, 4, 0, 0, 0, 0, 0, 0]

theorem tcpSegment_reset {tail : List UInt8} (h : tail.length = 1461) (srcIp : Nat) :
    tcpSegment (resetHeader ++ tail) srcIp 0 1481 = some ⟨80, 49152, 0, 0, TCP_RST, tail⟩ := by
  have hpay : bytesAt (resetHeader ++ tail) 20 1461 = some tail := by
    rw [bytesAt_eq (by rw [List.length_append, h]; rfl)]
    exact congrArg some (List.take_of_length_le h.le)
  exact congrArg (Option.map fun payload => (⟨80, 49152, 0, 0, TCP_RST, payload⟩ : Segment)) hpay

/-- One byte too long, it ends the connection. -/
theorem tcpRx_unverified_reset :
    let p := resetHeader ++ List.replicate 1461 0
    let net := { (booted []).net with conns := exampleSession.conns }
    ¬(rfc1071 (withPseudo 0x0A000202 p) ≠ 0 →
      tcpRx p 0x0A000202 0 p.length net = some (net, [])) := by
  intro p net h
  have hbad : rfc1071 (withPseudo 0x0A000202 p) ≠ 0 := by decide +kernel
  have hseg := tcpSegment_reset (List.length_replicate (n := 1461) (a := 0)) 0x0A000202
  have hlen : p.length = 1481 := List.length_append.trans (by rw [List.length_replicate]; rfl)
  rw [← hlen] at hseg
  have hno : hasFlag TCP_RST TCP_RST = false ∧ _ := (tcpRx_ignored_iff _ p net).mp (h hbad) _ hseg
  exact absurd hno.1 (by decide)

/-! ### Data on a connection -/

/-- The packet is a segment to the peer with the connection's next sequence
    number, and with this data behind its header. -/
structure CarriesData (c : TcpConn) (data : List UInt8) (d : Datagram) : Prop where
  dest : d.dstIp = c.remoteIp
  protocol : d.protocol = IP_PROTO_TCP
  seqNum : (d.payload.drop 4).take 4 = be32Bytes c.sendSeq
  data : d.payload.drop 20 = data

/-- The connection can be sent on. -/
def Open (connId : Int) (i : Fin TCP_MAX_CONNS) (c : TcpConn) : Prop :=
  connId = i.val ∧ c.inUse = true ∧ c.state = .established

/-- A segment whose length does not wrap around is handed over whole. -/
theorem segmentHanded_whole (seg : SentSegment) (h : seg.data.length ≤ 1460) :
    ((segmentHanded seg).payload.drop 4).take 4 = be32Bytes seg.seqNum ∧
      (segmentHanded seg).payload.drop 20 = seg.data := by
  have hsum : u16 (20 + seg.data.length) = 20 + seg.data.length := Nat.mod_eq_of_lt (by omega)
  have hall (sum : Nat) :
      (segmentWith seg sum).take (20 + seg.data.length) = segmentWith seg sum :=
    List.take_of_length_le (length_segmentWith seg sum).le
  simp only [segmentHanded, segmentBytes, hsum, hall]
  exact ⟨rfl, rfl⟩

/-- Data that is longer than a segment is dropped, or cut off with the end of
    the header. -/
theorem carriesData_iff (c : TcpConn) (flags : BitVec 8) (data : List UInt8) :
    (∃ d, (tcpSendSegment c flags data).map segmentHanded = [d] ∧ CarriesData c data d) ↔
      data.length ≤ 1460 := by
  unfold tcpSendSegment
  constructor
  · rintro ⟨d, hd, hc⟩
    by_cases hlong : u16 (20 + data.length) > 1480
    · rw [if_pos hlong] at hd
      exact absurd hd (List.cons_ne_nil d []).symm
    · rw [if_neg hlong] at hd
      have hle : d.payload.length ≤ u16 (20 + data.length) :=
        (List.cons.inj hd).1 ▸ List.length_take_le _ _
      have hlen := congrArg List.length hc.data
      rw [List.length_drop] at hlen
      omega
  · intro hfit
    have hsum : u16 (20 + data.length) = 20 + data.length := Nat.mod_eq_of_lt (by omega)
    rw [if_neg (by omega)]
    exact ⟨_, rfl, rfl, rfl, (segmentHanded_whole _ hfit).1, (segmentHanded_whole _ hfit).2⟩

variable {connId : Int} {conns : Conns}

theorem tcpSend_open {i : Fin TCP_MAX_CONNS} (data : List UInt8) (h : Open connId i (conns i)) :
    tcpSend connId data conns =
      (0, Function.update conns i { conns i with sendSeq := u32 ((conns i).sendSeq + data.length) },
        (tcpSendSegment (conns i) (TCP_ACK ||| TCP_PSH) data).map segmentHanded) := by
  rcases h with ⟨rfl, huse, hstate⟩
  have hi : (i.val : Int) < TCP_MAX_CONNS := Int.ofNat_lt.mpr i.isLt
  simp [tcpSend, Tcp.send, hi, huse, hstate]

theorem tcpSend_not_open (data : List UInt8) (h : ¬∃ i, Open connId i (conns i)) :
    tcpSend connId data conns = (-1, conns, []) := by
  unfold tcpSend
  by_cases hid : 0 ≤ connId ∧ connId < TCP_MAX_CONNS
  · rw [dif_pos hid]
    refine if_pos (Classical.byContradiction (fun hopen => h ⟨⟨connId.toNat, by omega⟩, ?_⟩))
    rw [not_or, Bool.not_eq_false, not_not] at hopen
    exact ⟨(Int.toNat_of_nonneg hid.1).symm, hopen⟩
  · rw [dif_neg hid]

/-- `tcp::send` is right about its segment exactly if the data fits in one,
    or if the connection cannot be sent on. -/
theorem tcpSend_on_wire_iff (connId : Int) (data : List UInt8) (conns : Conns) :
    (((tcpSend connId data conns).1 = 0 ∧ ∃ i, Open connId i (conns i) ∧
        (∃ d, (tcpSend connId data conns).2.2 = [d] ∧ CarriesData (conns i) data d) ∧
        ((tcpSend connId data conns).2.1 i).sendSeq =
          ((conns i).sendSeq + data.length) % 2 ^ 32) ∨
      ((tcpSend connId data conns).1 = -1 ∧ (tcpSend connId data conns).2.1 = conns)) ↔
      ((∃ i, Open connId i (conns i)) → data.length ≤ 1460) := by
  constructor
  · rintro (⟨_, i, hi, hd, _⟩ | ⟨hcode, _⟩) ⟨j, hj⟩
    · rw [tcpSend_open data hi] at hd
      exact (carriesData_iff _ _ _).mp hd
    · rw [tcpSend_open data hj] at hcode
      exact absurd hcode (show (0 : Int) ≠ -1 by decide)
  · intro hfit
    by_cases hopen : ∃ i, Open connId i (conns i)
    · rcases hopen with ⟨i, hi⟩
      rw [tcpSend_open data hi]
      refine Or.inl ⟨rfl, i, hi, (carriesData_iff _ _ _).mpr (hfit ⟨i, hi⟩), ?_⟩
      exact congrArg TcpConn.sendSeq (Function.update_self i _ conns)
    · rw [tcpSend_not_open data hopen]
      exact Or.inr ⟨rfl, rfl⟩

/-- One byte more than fits. -/
theorem tcpSend_dropped :
    (tcpSend 0 (List.replicate 1461 0) exampleSession.conns).1 = 0 ∧
      (tcpSend 0 (List.replicate 1461 0) exampleSession.conns).2.2 = [] := by
  decide +kernel

end SysRust.Net
