import SysRust.Theory.Net.TcpReceive

/-!
# The Stream a Peer Sends and the Bytes Returned

The session of `TcpReceive` under a network that does what networks do. The
peer has a stream to send and cuts it into segments as it likes; a segment
is any piece of the stream, with the sequence number of its first byte. The
network may deliver pieces in any order, more than once, cut differently
each time, or never. A delayed piece is one that is delivered later, so no
message in transit has to be recorded: at every step any piece may arrive.

`rx` never compares the sequence number of a segment with `send_ack`. In an
established connection every payload goes to the end of the receive buffer,
and the acknowledgement number is set from the segment. A segment that is
delivered twice is therefore returned twice, and of two that change places
the later one is returned first.

What keeps the stream intact is the order of arrival alone. When each
payload begins with the first byte that has not been stored yet, the bytes
returned are a prefix of the stream. A payload that overflows the buffer is
cut, and then the next one has to begin inside it.

## Main definitions

* `At`: A segment with the bytes of the stream from a position on.
* `Piece`: What may arrive: some piece of the stream, or no payload at all.
* `deliveries`: Sessions over such a network.
* `InSequence`: The segment begins with the first byte not stored yet.

## Theorems

* `prefix_append_drop`: A prefix extended by what follows it.
* `stored_prefix_step`: One event keeps what is stored a prefix of the stream.
* `returned_prefix_sent`: The bytes returned are a prefix of the stream, if
  segments arrive in sequence.
* `recv_returns`: A call of `recv` returns what the buffer holds.
* `returned_twice`: A segment that arrives twice is returned twice.
-/

namespace SysRust.Tcp

open List

/-- The segment carries bytes of the stream from position `pos` on. -/
structure At (sent : List UInt8) (isn pos : Nat) (seg : Segment) : Prop where
  seq : seg.seq = u32 (isn + pos)
  bytes : seg.payload <+: sent.drop pos

/-- A segment that a peer with this stream may have sent. -/
structure Piece (sent : List UInt8) (isn : Nat) (seg : Segment) : Prop where
  noReset : hasFlag seg.flags TCP_RST = false
  piece : seg.payload ≠ [] → ∃ pos, At sent isn pos seg

/-- Every segment of the peer is a piece of its stream; the rest of the
    session is as before. -/
def Delivers (sent : List UInt8) (s : Session) : Event → Prop
  | .rx srcIp seg => s.fromPeer srcIp seg = true → Piece sent s.isn seg
  | e => Allowed s e

def deliveries (sent : List UInt8) : Machine Session Event where
  start := Fresh
  allows := Delivers sent
  exec := exec

/-- A payload for the established connection begins with the first byte of
    the stream that is not stored yet. -/
def InSequence (sent : List UInt8) (s : Session) : Event → Prop
  | .rx srcIp seg => s.fromPeer srcIp seg = true → s.here.state = .established →
      seg.payload ≠ [] → At sent s.isn s.stored.length seg
  | _ => True

theorem prefix_append_drop {α : Type} {l p sent : List α} (hl : l <+: sent)
    (hp : p <+: sent.drop l.length) : l ++ p <+: sent := by
  rcases hl with ⟨rest, rfl⟩
  rw [drop_left] at hp
  exact (prefix_append_right_inj l).mpr hp

variable {s t : Session} {M : Machine Session Event} {sent : List UInt8}

/-- Only for segments does the network differ from the one of `TcpReceive`. -/
theorem delivers_iff {e : Event} (hne : ∀ srcIp seg, e ≠ .rx srcIp seg) :
    Delivers sent s e ↔ Allowed s e := by
  cases e with
  | rx srcIp seg => exact absurd rfl (hne srcIp seg)
  | send | recvStart | recvTimeout | recvSnapshot | recvByte | recvFinish => exact Iff.rfl

/-- A segment of the peer keeps what is stored a prefix of the stream. -/
theorem stored_prefix_rx (h : Sound s) (hpre : s.stored <+: sent) {srcIp : Nat} {seg : Segment}
    (hp : s.fromPeer srcIp seg = true) (hreset : hasFlag seg.flags TCP_RST = false)
    (hseq : InSequence sent s (.rx srcIp seg)) :
    Sound (s.onRx srcIp seg) ∧ (s.onRx srcIp seg).stored <+: sent := by
  rcases h.phase with he | ht
  · have ha := rx_arrived h hp hreset he
    refine ⟨ha.sound, ?_⟩
    have hstored : (s.onRx srcIp seg).stored =
        s.stored ++ seg.payload.take (TCP_RX_BUF_SIZE - 1 - s.held.length) := by
      rw [Session.stored, ha.held, ← append_assoc]
      rfl
    rw [hstored]
    by_cases hnil : seg.payload = []
    · rw [hnil, take_nil, append_nil]
      exact hpre
    · -- What fits of the payload is still what comes next.
      have hbytes := (hseq hp he hnil).bytes
      exact prefix_append_drop hpre (( take_prefix _ _).trans hbytes)
  · -- The peer has closed, and nothing is stored any more.
    have hsame : s.onRx srcIp seg = { s with
        stream := (s.onRx srcIp seg).stream, finSent := (s.onRx srcIp seg).finSent } := by
      simp only [Session.onRx, rx_closed h hp hreset ht, Session.lastAck, foldl_nil]
    rw [hsame]
    exact ⟨⟨h.inUse, h.found, h.head, h.tail, h.phase, h.acked, h.reading⟩, hpre⟩

/-- One event keeps what is stored a prefix of the stream, if its payload is
    in sequence. -/
theorem stored_prefix_step {e : Event} (h : Sound s) (hpre : s.stored <+: sent)
    (ha : Delivers sent s e) (hseq : InSequence sent s e) (he : exec s e = some t) :
    Sound t ∧ t.stored <+: sent := by
  rcases steady_or_peer h (fun hne => (delivers_iff hne).mp ha) he with
    hst | ⟨srcIp, seg, rfl, hp, rfl⟩
  · exact ⟨hst.sound, by rw [hst.stored]; exact hpre⟩
  · exact stored_prefix_rx h hpre hp (ha hp).noReset hseq

/-- In every run whose payloads all arrive in sequence, the bytes `recv` has
    returned are a prefix of the peer's stream. -/
theorem returned_prefix_sent {sent : List UInt8} {s : Session}
    (hs : ((deliveries sent).restrict (InSequence sent)).Reachable s) : s.returned <+: sent := by
  have h : Sound s ∧ s.stored <+: sent := by
    refine Machine.Reachable.invariant (fun s => Sound s ∧ s.stored <+: sent) ?_ ?_ hs
    · intro s hs
      refine ⟨sound_start hs, ?_⟩
      rw [Session.stored, hs.history.2.1, held_start hs]
      exact nil_prefix
    · rintro s t e ⟨hsound, hpre⟩ ⟨ha, hseq⟩ he
      exact stored_prefix_step hsound hpre ha hseq he
  exact (prefix_append _ _).trans h.2

/-! ### A call of `recv` -/

/-- A network in whose runs the reader is free to take its steps. -/
structure LetsRead (M : Machine Session Event) : Prop where
  exec : M.exec = exec
  allows : ∀ s e, (∀ srcIp seg, e ≠ .rx srcIp seg) → Allowed s e → M.allows s e

theorem LetsRead.reaches (hM : LetsRead M) (hs : M.Reachable s) (e : Event)
    (hne : ∀ srcIp seg, e ≠ .rx srcIp seg) (ha : Allowed s e) (he : Tcp.exec s e = some t) :
    M.Reachable t :=
  Machine.Reachable.step s t e hs (hM.allows s e hne ha) (by rw [hM.exec]; exact he)

/-- A copying reader returns what it decided to copy. -/
theorem copying_returns (hM : LetsRead M) (k : Nat) {r : Copying} (hs : M.Reachable s) (h : Sound s)
    (hr : s.reader = .copying r) (hk : r.copied.length + k = r.count) :
    ∃ t, M.Reachable t ∧ t.returned = s.returned ++ s.held.take r.count := by
  induction k generalizing s r with
  | zero =>
    have he : exec s .recvFinish = some (s.onFinish r) := by rw [exec, hr]
    refine ⟨s.onFinish r, hM.reaches hs .recvFinish (fun _ _ hne => Event.noConfusion hne)
      ⟨r, hr, hk⟩ he, ?_⟩
    have hcopied := (h.reading r hr).2.2.2
    rw [show r.copied.length = r.count from hk] at hcopied
    rw [← hcopied]
    rfl
  | succ k ih =>
    have hmore : r.copied.length < r.count := by omega
    have he : exec s .recvByte =
        some { s with reader := .copying (recvByte r s.here) } := by rw [exec, hr]
    have hs1 := hM.reaches hs .recvByte (fun _ _ hne => Event.noConfusion hne)
      ⟨r, hr, hmore⟩ he
    have hk1 : (recvByte r s.here).copied.length + k = (recvByte r s.here).count := by
      simp only [recvByte, length_append, length_singleton]
      omega
    exact ih (s := { s with reader := .copying (recvByte r s.here) }) (r := recvByte r s.here) hs1
      (steady_byte h hr hmore).sound rfl hk1

/-- A call of `recv` that finds bytes in the buffer returns the first of
    them, as many as were asked for. -/
theorem recv_returns (hM : LetsRead M) (hs : M.Reachable s) (h : Sound s) (hidle : s.reader = .idle)
    (hheld : s.held ≠ []) (maxLen : Nat) :
    ∃ t, M.Reachable t ∧ t.returned = s.returned ++ s.held.take maxLen := by
  have hne : s.here.rxHead ≠ s.here.rxTail := by
    intro he
    apply hheld
    rw [Session.held, he, ← length_eq_zero_iff, Ring.length_contents]
    exact Ring.count_self h.tail
  -- The call starts, reads the indices, and copies.
  have hstart : exec s (.recvStart maxLen) = some { s with reader := .waiting maxLen } := by
    simp only [exec, h.inUse, if_true]
  have hs1 := hM.reaches hs (.recvStart maxLen) (fun _ _ hne => Event.noConfusion hne) hidle hstart
  let r : Copying := { tail := s.here.rxTail, count := min s.held.length maxLen, copied := [] }
  have hsnap : exec { s with reader := .waiting maxLen } .recvSnapshot =
      some { s with reader := .copying r } := by
    have hread : recvSnapshot maxLen s.here = some r := recvSnapshot_eq h hne maxLen
    simp only [exec, Session.onSnapshot, Session.here] at hread ⊢
    rw [hread]
  have hs2 := hM.reaches hs1 .recvSnapshot (fun _ _ hne => Event.noConfusion hne)
    ⟨maxLen, rfl⟩ hsnap
  have h2 : Sound { s with reader := .copying r } := by
    refine (steady_reader h _ (fun q hq => ?_)).sound
    rw [← Reader.copying.inj hq]
    exact ⟨rfl, Nat.min_le_left _ _, Nat.zero_le _, rfl⟩
  rcases copying_returns hM r.count hs2 h2 rfl (Nat.zero_add _) with ⟨t, ht, hret⟩
  refine ⟨t, ht, hret.trans ?_⟩
  have htake : s.held.take (min s.held.length maxLen) = s.held.take maxLen := by
    rw [← take_take, take_of_length_le (length_take_le' _ _)]
  exact congrArg (s.returned ++ ·) htake

theorem letsRead_deliveries (sent : List UInt8) : LetsRead (deliveries sent) :=
  ⟨rfl, fun _ _ hne ha => (delivers_iff hne).mpr ha⟩

theorem letsRead_inSequence (sent : List UInt8) :
    LetsRead ((deliveries sent).restrict (InSequence sent)) := by
  refine ⟨rfl, fun s e hne ha => ⟨(letsRead_deliveries sent).allows s e hne ha, ?_⟩⟩
  cases e with
  | rx srcIp seg => exact absurd rfl (hne srcIp seg)
  | send | recvStart | recvTimeout | recvSnapshot | recvByte | recvFinish => exact trivial

/-! ### A segment and its copy -/

theorem piece_dataSegment : Piece [0x41] 1001 (dataSegment 0 1) :=
  ⟨by decide, fun _ => ⟨0, by decide, prefix_refl _⟩⟩

/-- The peer's only byte has arrived. -/
def once : Session := exampleSession.onRx 0x0A000202 (dataSegment 0 1)

theorem once_arrived : Arrived exampleSession once (dataSegment 0 1) :=
  rx_arrived (sound_start exampleSession_fresh) rfl (by decide) rfl

theorem held_once : once.held = [0x41] := by
  rfl

theorem reachable_once :
    ((deliveries [0x41]).restrict (InSequence [0x41])).Reachable once := by
  refine Machine.Reachable.step exampleSession _ (.rx 0x0A000202 (dataSegment 0 1))
    (Machine.Reachable.start _ exampleSession_fresh) ⟨fun _ => piece_dataSegment, ?_⟩ rfl
  intro _ _ _
  exact ⟨by decide, prefix_refl _⟩

/-- The byte arrives once and is returned. -/
theorem returned_prefix_sent_once :
    ∃ s, ((deliveries [0x41]).restrict (InSequence [0x41])).Reachable s ∧
      s.returned = [0x41] ∧ s.returned <+: [0x41] := by
  rcases recv_returns (letsRead_inSequence _) reachable_once once_arrived.sound rfl
    (by rw [held_once]; exact cons_ne_nil _ _) 16 with ⟨t, ht, hret⟩
  exact ⟨t, ht, by rw [hret, held_once]; rfl, returned_prefix_sent ht⟩

/-- The peer's only byte arrives twice, because its acknowledgement was lost
    and the peer sent it again. Both copies are returned. -/
theorem returned_twice :
    ∃ s, (deliveries [0x41]).Reachable s ∧ s.returned = [0x41, 0x41] ∧
      ¬ s.returned <+: [0x41] := by
  have hpeer : once.fromPeer 0x0A000202 (dataSegment 0 1) = true := by
    rcases once_arrived.ends with ⟨h1, h2, h3⟩
    exact (fromPeer_iff _ _ _).mpr ⟨h1.symm, h2.symm, h3.symm⟩
  have harr := rx_arrived once_arrived.sound hpeer (by decide) once_arrived.state
  have hheld : (once.onRx 0x0A000202 (dataSegment 0 1)).held = [0x41, 0x41] := by
    rfl
  have hreach : (deliveries [0x41]).Reachable (once.onRx 0x0A000202 (dataSegment 0 1)) :=
    Machine.Reachable.step once _ (.rx 0x0A000202 (dataSegment 0 1)) reachable_once.of_restrict
      (fun _ => piece_dataSegment) rfl
  rcases recv_returns (letsRead_deliveries _) hreach harr.sound rfl
    (by rw [hheld]; exact cons_ne_nil _ _) 16 with ⟨t, ht, hret⟩
  have htwo : t.returned = [0x41, 0x41] := by
    rw [hret, hheld]
    rfl
  exact ⟨t, ht, htwo, by rw [htwo]; decide⟩

end SysRust.Tcp
