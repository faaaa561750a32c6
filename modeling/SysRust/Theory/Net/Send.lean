import SysRust.Theory.Net.Checksum
import SysRust.Theory.Net.Replies

/-!
# Packets While They Wait

A packet is put together in the one buffer of `ipv4::send` and stays there
until the hardware address of the next hop is known. If the receive path
sends nothing of its own in the meantime, the frame is the one the call was
made for. Every answer it does send goes through the same buffer, and then
the frame of the waiting call has the header of the answer.

## Main definitions

* `Carries`: A frame carries a packet.
* `InBuffer`: A packet is in the buffer.
* `SendInv`: What holds of the send path between two steps.
* `Undisturbed`: No frame that is answered arrives during a call.

## Theorems

* `checksumBytes_ipHeader`: The checksum of a header is valid.
* `carries_transmit`: The frame carries what is in the buffer.
* `rxStep_sendInv`, `pollSend_sendInv`: A step keeps the invariant.
* `carries_reachable`: Every frame carries the packet of its call.
* `not_carries_of_answer`: An answer to another host spoils the packet.
* `writes_inside_iff`: Which lengths stay inside the static buffers.
-/

namespace SysRust.Net

open List

/-- The frame carries the packet: the addresses, the protocol, the length and
    a valid checksum in its header, and the payload behind it. -/
structure Carries (d : Datagram) (frame : List UInt8) : Prop where
  source : (frame.drop 26).take 4 = be32Bytes NET_IP_ADDR
  dest : (frame.drop 30).take 4 = be32Bytes d.dstIp
  protocol : frame[23]? = some (UInt8.ofNat d.protocol)
  total : (frame.drop 16).take 2 = be16Bytes (20 + d.payload.length)
  sum : checksumBytes ((frame.drop 14).take 20) = 0
  payload : frame.drop 34 = d.payload

/-! ### Headers -/

theorem length_ipHeader (d : Datagram) (id sum : Nat) : (ipHeader d id sum).length = 20 := by
  simp only [ipHeader, be16Bytes, be32Bytes, sumBytes, length_append, length_cons,
    length_nil]

/-- The checksum of a header is valid. -/
theorem checksumBytes_ipHeader (d : Datagram) (id : Nat) :
    checksumBytes (ipHeader d id (checksumBytes (ipHeader d id 0))) = 0 := by
  have hsplit (sum : Nat) : ipHeader d id sum =
      ([0x45, 0] ++ be16Bytes (20 + d.payload.length) ++ be16Bytes id ++ be16Bytes 0x4000 ++
        [64, UInt8.ofNat d.protocol]) ++ sumBytes sum ++
        (be32Bytes NET_IP_ADDR ++ be32Bytes d.dstIp) := by
    rw [ipHeader, append_assoc _ (be32Bytes NET_IP_ADDR)]
  have hzero : sumBytes 0 = [0, 0] := rfl
  rw [hsplit, hsplit 0, hzero]
  refine checksum_stored ?_ ?_
  · simp only [be16Bytes, length_append, length_cons, length_nil]
  · rw [← hzero, ← hsplit, length_ipHeader]
    decide

/-! ### The buffer -/

/-- The packet is at the start of the buffer. -/
def InBuffer (d : Datagram) (buf : List UInt8) : Prop :=
  ∃ id rest, buf = ipHeader d id (checksumBytes (ipHeader d id 0)) ++ d.payload ++ rest

theorem inBuffer_build (d : Datagram) (s : SendStack) : InBuffer d (build d s).pktBuf :=
  ⟨_, _, rfl⟩

/-- The frame of a call. -/
def frameOf (d : Datagram) (mac ourMac buf : List UInt8) : List UInt8 :=
  mac ++ ourMac ++ be16Bytes ETH_TYPE_IP ++ buf.take (20 + d.payload.length)

variable {mac ourMac f : List UInt8} {d : Datagram} {ip : Nat} {s t : SendStack}
  {ds : List Datagram}

/-- What is behind the Ethernet header of a frame. -/
theorem drop_frameOf (d : Datagram) (buf : List UInt8) (hmac : mac.length = 6)
    (hours : ourMac.length = 6) (n : Nat) :
    (frameOf d mac ourMac buf).drop (14 + n) = (buf.take (20 + d.payload.length)).drop n := by
  have hlen : (mac ++ ourMac ++ be16Bytes ETH_TYPE_IP).length = 14 := by
    simp only [length_append, hmac, hours, be16Bytes, length_cons, length_nil]
  rw [frameOf, ← hlen, drop_length_add_append]

/-- The frame carries what is in the buffer. -/
theorem carries_frameOf {buf : List UInt8} (hmac : mac.length = 6) (hours : ourMac.length = 6)
    (hbuf : InBuffer d buf) : Carries d (frameOf d mac ourMac buf) := by
  rcases hbuf with ⟨id, rest, rfl⟩
  have hdrop := drop_frameOf d
    (ipHeader d id (checksumBytes (ipHeader d id 0)) ++ d.payload ++ rest) hmac hours
  have htake : (ipHeader d id (checksumBytes (ipHeader d id 0)) ++ d.payload ++ rest).take
      (20 + d.payload.length) = ipHeader d id (checksumBytes (ipHeader d id 0)) ++ d.payload := by
    rw [← length_ipHeader d id (checksumBytes (ipHeader d id 0)), ← length_append,
      take_left]
  rw [htake] at hdrop
  have hsum := checksumBytes_ipHeader d id
  have hlen := length_ipHeader d id (checksumBytes (ipHeader d id 0))
  constructor
  · rw [show 26 = 14 + 12 from rfl, hdrop]
    rfl
  · rw [show 30 = 14 + 16 from rfl, hdrop]
    rfl
  · rw [show 23 = 14 + 9 from rfl, ← List.head?_drop, hdrop]
    rfl
  · rw [show 16 = 14 + 2 from rfl, hdrop]
    rfl
  · have h0 := hdrop 0
    rw [Nat.add_zero, drop_zero] at h0
    rw [h0, ← hlen, take_left]
    exact hsum
  · rw [show 34 = 14 + 20 from rfl, hdrop, ← hlen, drop_left]

/-! ### Steps -/

/-- What holds of the send path between two steps. -/
structure SendInv (s : SendStack) : Prop where
  ours : s.ourMac.length = 6
  table : ∀ i, (s.net.arpTable i).mac.length = 6
  waiting : ∀ c, s.sending = some c → InBuffer c.call s.pktBuf
  found : ∀ c mac, s.sending = some c → c.pc = .found mac → mac.length = 6
  handed : ∀ h ∈ s.handed, Carries h.call h.frame

variable {table : Fin ARP_TABLE_SIZE → ArpEntry}

theorem arpTableLookup_mem (h : arpTableLookup ip table = some mac) : ∃ i, (table i).mac = mac := by
  rcases Option.map_eq_some_iff.mp h with ⟨i, -, hi⟩
  exact ⟨i, hi⟩

theorem arpTableUpdate_mac (hmac : mac.length = 6) (htab : ∀ i, (table i).mac.length = 6)
    (i : Fin ARP_TABLE_SIZE) : (arpTableUpdate ip mac table i).mac.length = 6 := by
  have hupd (j : Fin ARP_TABLE_SIZE) (e : ArpEntry) (he : e.mac.length = 6) :
      (Function.update table j e i).mac.length = 6 := by
    by_cases hij : i = j
    · rw [hij, Function.update_self]
      exact he
    · rw [Function.update_of_ne hij]
      exact htab i
  unfold arpTableUpdate
  cases Fin.find? (fun i => (table i).valid && (table i).ip == ip) with
  | some j => exact hupd j _ hmac
  | none =>
    cases Fin.find? (fun i => !(table i).valid) with
    | some j => exact hupd j _ hmac
    | none => exact htab i

/-- The receive path enters whole hardware addresses only. -/
theorem rx_table {net net' : Net} {sent : List Sent} (h : rx f net = some (net', sent))
    (htab : ∀ i, (net.arpTable i).mac.length = 6) : ∀ i, (net'.arpTable i).mac.length = 6 := by
  have hsame (he : net'.arpTable = net.arpTable) : ∀ i, (net'.arpTable i).mac.length = 6 := by
    rw [he]
    exact htab
  have hle : u16 f.length ≤ f.length := Nat.mod_le _ _
  rw [rx_eq] at h
  cases hp : ipPacket f with
  | some r =>
    have hin := ipPacket_inside hp
    rw [hp] at h
    exact hsame ((deliver_table hin).of_eq_some h)
  | none =>
    rw [hp] at h
    split_ifs at h with harp
    · rcases ((arpRx_returns (by omega)).of_eq_some h).2 with he | ⟨ip, off, mac, hmac, he⟩
      · exact hsame he
      · rw [he]
        exact arpTableUpdate_mac (length_bytesAt hmac) htab
    · cases h
      exact htab

/-- A frame that carries its packet may be handed over. -/
theorem sendInv_transmit (hours : s.ourMac.length = 6) (hmac : mac.length = 6)
    (hbuf : InBuffer d s.pktBuf) (hh : ∀ h ∈ s.handed, Carries h.call h.frame) :
    ∀ h ∈ (transmit d mac s).handed, Carries h.call h.frame := by
  intro h hmem
  rcases mem_append.mp hmem with hmem | hmem
  · exact hh h hmem
  · rw [mem_singleton.mp hmem]
    exact carries_frameOf hmac hours hbuf

/-- An answer that is sent while no call waits. -/
theorem sendNow_sendInv (hs : SendInv s) (hidle : s.sending = none) (h : sendNow s d = some t) :
    SendInv t ∧ t.sending = none := by
  unfold sendNow at h
  split_ifs at h
  · cases h
    exact ⟨hs, hidle⟩
  · rcases Option.map_eq_some_iff.mp h with ⟨mac, hmac, rfl⟩
    rcases arpTableLookup_mem hmac with ⟨i, hi⟩
    have hlen : mac.length = 6 := by
      rw [← hi]
      exact hs.table i
    have hnone (c : Sending) (hc : s.sending = some c) : False := by
      rw [hidle] at hc
      cases hc
    refine ⟨⟨hs.ours, hs.table, fun c hc => (hnone c hc).elim, fun c _ hc => (hnone c hc).elim,
      ?_⟩, hidle⟩
    exact sendInv_transmit hs.ours hlen (inBuffer_build d s) hs.handed

theorem foldlM_sendNow_sendInv (hs : SendInv s) (hidle : s.sending = none)
    (h : ds.foldlM sendNow s = some t) : SendInv t := by
  induction ds generalizing s with
  | nil =>
    cases h
    exact hs
  | cons d ds ih =>
    rcases Option.bind_eq_some_iff.mp h with ⟨u, hu, h⟩
    rcases sendNow_sendInv hs hidle hu with ⟨hinv, hsend⟩
    exact ih hinv hsend h

/-- Packets that do not fit are dropped. -/
theorem foldlM_sendNow_dropped (s : SendStack) (h : ∀ d ∈ ds, ¬Fits d) :
    ds.foldlM sendNow s = some s := by
  induction ds with
  | nil => rfl
  | cons d ds ih =>
    have hlong : tooLong d = true := by
      have := h d (mem_cons_self)
      rwa [Fits, Bool.not_eq_false] at this
    rw [foldlM_cons, sendNow, if_pos hlong]
    exact ih (fun d' hd' => h d' (mem_cons_of_mem d hd'))

/-- No frame that is answered arrives while a call waits. -/
def Undisturbed (s : SendStack) (o : SendOp) : Prop :=
  ∀ f, o = .receive f → s.sending.isSome = true → ∀ srcIp, ¬CallsForReply f s.net srcIp

/-- A frame keeps the invariant. -/
theorem rxStep_sendInv (hs : SendInv s) (hu : Undisturbed s (.receive f))
    (h : rxStep f s = some t) : SendInv t := by
  rcases Option.bind_eq_some_iff.mp h with ⟨⟨net', sent⟩, hrx, h⟩
  have htab := rx_table hrx hs.table
  have hinv : SendInv { s with net := net' } := ⟨hs.ours, htab, hs.waiting, hs.found, hs.handed⟩
  cases hsend : s.sending with
  | none => exact foldlM_sendNow_sendInv hinv hsend h
  | some c =>
    have hno : ∀ d ∈ sent.filterMap Sent.datagram, ¬Fits d := by
      intro d hd hfit
      refine hu f rfl ?_ d.dstIp (((replies_of_rx hrx).1 d hd).2 hfit)
      rw [hsend]
      rfl
    rw [foldlM_sendNow_dropped _ hno] at h
    cases h
    exact hinv

/-- A call that goes on keeps the invariant. -/
theorem pollSend_sendInv {c : Sending} (hs : SendInv s) (hc : s.sending = some c) :
    SendInv (pollSend c s) := by
  have hbuf := hs.waiting c hc
  have hgo (pc : SendPc) (hpc : ∀ mac, pc = .found mac → mac.length = 6) :
      SendInv { s with sending := some { c with pc := pc } } := by
    refine ⟨hs.ours, hs.table, fun c' hc' => ?_, fun c' mac hc' hf => ?_, hs.handed⟩
    · cases hc'
      exact hbuf
    · cases hc'
      exact hpc mac hf
  have hfound (mac : List UInt8)
      (hl : arpTableLookup (nextHop c.call.dstIp) s.net.arpTable = some mac) :
      SendInv { s with sending := some { c with pc := .found mac } } := by
    refine hgo _ (fun mac' he => ?_)
    rcases arpTableLookup_mem hl with ⟨i, hi⟩
    cases he
    rw [← hi]
    exact hs.table i
  have hdone (hh : List Handed) (hcar : ∀ h ∈ hh, Carries h.call h.frame) :
      SendInv { s with sending := none, handed := hh } := by
    refine ⟨hs.ours, hs.table, fun _ he => ?_, fun _ _ he => ?_, hcar⟩
    all_goals cases he
  unfold pollSend
  cases hpc : c.pc with
  | lookup =>
    simp only
    split
    · next mac hl => exact hfound mac hl
    · exact hgo _ (fun mac he => by cases he)
  | wait attempt start =>
    simp only
    split_ifs
    · split
      · next mac hl => exact hfound mac hl
      · exact hgo _ (fun mac he => by cases he)
    · exact hgo _ (fun mac he => by cases he)
    · exact hdone s.handed hs.handed
  | found mac =>
    exact hdone _ (sendInv_transmit hs.ours (hs.found c mac hc hpc) hbuf hs.handed)

/-- Every frame of a call that is not disturbed carries the packet of the
    call, whatever arrives between the calls and whatever else arrives during
    them. -/
theorem carries_reachable {s : SendStack} (hs : (sender.restrict Undisturbed).Reachable s) :
    ∀ h ∈ s.handed, Carries h.call h.frame := by
  have hinv : SendInv s := by
    refine Machine.Reachable.invariant SendInv ?_ ?_ hs
    · intro s h
      rcases h with ⟨hsend, hh, hours, htab⟩
      refine ⟨hours, htab, fun c hc => ?_, fun c _ hc => ?_, fun h hm => ?_⟩
      · rw [hsend] at hc
        cases hc
      · rw [hsend] at hc
        cases hc
      · rw [hh] at hm
        exact absurd hm not_mem_nil
    · intro s t o hs ha he
      cases o with
      | send d =>
        simp only [Machine.restrict, sender, execSend] at he
        split_ifs at he
        cases he
        unfold beginSend
        split_ifs
        · exact hs
        · refine ⟨hs.ours, hs.table, fun c hc => ?_, fun c mac hc hf => ?_, hs.handed⟩
          · cases hc
            exact inBuffer_build d s
          · cases hc
            cases hf
      | poll =>
        rcases Option.map_eq_some_iff.mp he with ⟨c, hc, rfl⟩
        exact pollSend_sendInv hs hc
      | receive f => exact rxStep_sendInv hs ha.2 he
      | tick =>
        cases he
        exact ⟨hs.ours, hs.table, hs.waiting, hs.found, hs.handed⟩
  exact hinv.handed

instance (s : SendStack) (o : SendOp) : Decidable (sender.allows s o) :=
  inferInstanceAs (Decidable ((execSend s o).isSome = true))

/-- The ARP reply of 10.0.2.3. -/
def arpFrame : List UInt8 :=
  [0x52, 0x54, 0, 0x12, 0x34, 0x56, 3, 3, 3, 3, 3, 3, 8, 6,
    0, 1, 8, 0, 6, 4, 0, 2, 3, 3, 3, 3, 3, 3, 10, 0, 2, 3,
    0x52, 0x54, 0, 0x12, 0x34, 0x56, 10, 0, 2, 15]

/-- A packet for 10.0.2.3. -/
def query : Datagram where
  dstIp := 0x0A000203
  protocol := IP_PROTO_UDP
  payload := [1, 2, 3, 4]

/-- A call that waits for an ARP reply. -/
theorem carries_reachable_arp :
    ∃ s, (sender.restrict Undisturbed).Reachable s ∧ s.handed.map Handed.call = [query] ∧
      ∀ h ∈ s.handed, Carries h.call h.frame := by
  have hrun : sender.run (booted []) [.send query, .poll, .receive arpFrame, .poll, .poll] =
      some _ := rfl
  have hC : ∀ o ∈ [SendOp.send query, .poll, .receive arpFrame, .poll, .poll],
      ∀ s, Undisturbed s o := by
    intro o ho s f hf _ srcIp hc
    subst hf
    simp only [mem_cons, reduceCtorEq, SendOp.receive.injEq, not_mem_nil, or_false,
      false_or] at ho
    rcases hc with ⟨_, _, _, hp, -⟩
    have hnone : ipPacket arpFrame = none := rfl
    rw [ho, hnone] at hp
    cases hp
  have hstart : (sender.restrict Undisturbed).start (booted []) :=
    ⟨rfl, rfl, rfl, fun _ => rfl⟩
  have hs := Machine.reachable_run_restrict hC (Machine.Reachable.start _ hstart) hrun
  exact ⟨_, hs, rfl, carries_reachable hs⟩

/-! ### Answers in between -/

/-- The destination in the header at the start of the buffer. -/
def DestIs (ip : Nat) (buf : List UInt8) : Prop := (buf.drop 16).take 4 = be32Bytes ip

theorem foldlM_sendNow_dest (hto : ∀ d ∈ ds, Fits d → d.dstIp = ip)
    (h : ds.foldlM sendNow s = some t) (hone : DestIs ip s.pktBuf ∨ ∃ d ∈ ds, Fits d) :
    DestIs ip t.pktBuf := by
  induction ds generalizing s with
  | nil =>
    cases h
    rcases hone with hone | ⟨d, hd, -⟩
    · exact hone
    · exact absurd hd not_mem_nil
  | cons d ds ih =>
    rcases Option.bind_eq_some_iff.mp h with ⟨u, hu, h⟩
    refine ih (fun d' hd' => hto d' (mem_cons_of_mem d hd')) h ?_
    unfold sendNow at hu
    by_cases hlong : tooLong d = true
    · rw [if_pos hlong] at hu
      cases hu
      rcases hone with hone | ⟨d', hd', hfit⟩
      · exact Or.inl hone
      · rcases mem_cons.mp hd' with rfl | hd'
        · exact absurd (hlong.symm.trans hfit) (by decide)
        · exact Or.inr ⟨d', hd', hfit⟩
    · rw [if_neg hlong] at hu
      rcases Option.map_eq_some_iff.mp hu with ⟨mac, -, rfl⟩
      left
      rw [← hto d mem_cons_self (eq_false_of_ne_true hlong)]
      rfl

/-- An answer to another host during a call is in the buffer when the call
    goes on, and its frame does not carry the packet it was made for. -/
theorem not_carries_of_answer {srcIp : Nat} (hcall : CallsForReply f s.net srcIp)
    (ht : rxStep f s = some t) (hsrc : srcIp < 2 ^ 32) (hdst : d.dstIp < 2 ^ 32)
    (hne : srcIp ≠ d.dstIp) (hmac : mac.length = 6) (hours : ourMac.length = 6) :
    ¬Carries d (frameOf d mac ourMac t.pktBuf) := by
  intro hcar
  rcases Option.bind_eq_some_iff.mp ht with ⟨⟨net', sent⟩, hrx, ht⟩
  rcases replies_of_rx hrx with ⟨hof, hto⟩
  rcases hto srcIp hcall with ⟨d', hd', hfit, -⟩
  have hdest : DestIs srcIp t.pktBuf := by
    refine foldlM_sendNow_dest (fun d hd hfit => ?_) ht (Or.inr ⟨d', hd', hfit⟩)
    -- A frame is answered to one host.
    rcases hcall with ⟨_, _, _, hone, -⟩
    rcases (hof d hd).2 hfit with ⟨_, _, _, hsame, -⟩
    rw [hone] at hsame
    cases hsame
    rfl
  have hbytes := hcar.dest
  rw [show 30 = 14 + 16 from rfl, drop_frameOf d _ hmac hours, drop_take, take_take,
    show min 4 (20 + d.payload.length - 16) = 4 by omega] at hbytes
  have hsame := hdest.symm.trans hbytes
  simp only [be32Bytes, List.cons.injEq, and_true, ← UInt8.toNat_inj, UInt8.toNat_ofNat'] at hsame
  omega

/-- An echo request from the gateway spoils a query to another host. -/
theorem not_carries_of_ping : ∃ s t, rxStep pingFrame s = some t ∧
    ¬Carries query (frameOf query (List.replicate 6 3) (List.replicate 6 1) t.pktBuf) := by
  have ht : rxStep pingFrame (booted [⟨0x0A000202, List.replicate 6 2, true⟩]) = some _ := rfl
  have hecho : EchoRequest pingFrame 34 8 := ⟨by decide, by decide, rfl, rfl⟩
  exact ⟨_, _, ht, not_carries_of_answer ⟨_, _, _, rfl, Or.inl ⟨rfl, hecho, by decide⟩⟩ ht
    (by decide) (by decide) (by decide) rfl rfl⟩

/-- An echo request from the gateway, handled while a call waits for the
    hardware address of another host. -/
theorem carries_answer :
    ∃ s, sender.Reachable s ∧ ∃ h ∈ s.handed, h.call = query ∧ ¬Carries h.call h.frame := by
  have hrun : sender.run (booted [⟨0x0A000202, List.replicate 6 2, true⟩])
      [.send query, .poll, .receive pingFrame, .receive arpFrame, .poll, .poll] = some _ := rfl
  have hstart : sender.start (booted [⟨0x0A000202, List.replicate 6 2, true⟩]) :=
    ⟨rfl, rfl, rfl, by decide⟩
  have hs := Machine.reachable_run (Machine.Reachable.start _ hstart) hrun
  refine ⟨_, hs, _, mem_cons_of_mem _ mem_cons_self, rfl, fun hcar => ?_⟩
  exact absurd hcar.dest (by decide)

/-! ### Static buffers -/

theorem forall_writes_iff {c : Prop} [Decidable c] (ws : List (Nat × Nat)) (size : Nat) :
    (∀ w ∈ if c then [] else ws, w.1 + w.2 ≤ size) ↔ (¬c → ∀ w ∈ ws, w.1 + w.2 ≤ size) := by
  by_cases hc : c
  · simp [hc]
  · simp [hc]

/-- Every function stays inside its buffer, TCP and UDP up to the lengths at
    which the sum with the header wraps around. -/
theorem writes_inside_iff (path : TxPath) (length : UInt16) :
    (∀ w ∈ path.writes length.toNat, w.1 + w.2 ≤ path.bufSize) ↔
      match path with
      | .tcpSendSegment => length.toNat < 65516
      | .udpSend => length.toNat < 65528
      | _ => True := by
  have hlt := length.toNat_lt
  cases path <;> rw [TxPath.writes, TxPath.bufSize, forall_writes_iff] <;>
    simp only [forall_mem_cons, not_mem_nil, false_imp_iff, implies_true, and_true,
      iff_true, u16, u32] <;>
    omega

theorem segBuf_overrun :
    ¬∀ w ∈ TxPath.tcpSendSegment.writes (65516 : UInt16).toNat,
      w.1 + w.2 ≤ TxPath.tcpSendSegment.bufSize := by
  decide

end SysRust.Net
