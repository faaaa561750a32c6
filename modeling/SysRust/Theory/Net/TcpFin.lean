import SysRust.Theory.Net.TcpUsers

/-!
# Saying FIN

A connection that was established and not reset is over for the peer when it
has seen a FIN. `close` is the only function that sends one, and only in the
states `SYN_SENT` and `ESTABLISHED`. When the peer's FIN comes first, `rx`
acknowledges it and moves the connection to `TIME_WAIT`, and a `close` that
finds it there waits half a second, gives the slot back and returns. No FIN
is sent on such a connection, ever.

There is a second way to lose the FIN. A call that waits on a slot whose
connection was reset does not notice when the slot is taken again, and gives
it back when its own time is over, with the new connection established in
it. The `close` of that connection then finds the slot free.

These are the only two. What a connection has been through determines
whether its FIN was sent (`Settled`) from the moment it is neither being
opened nor open any more, and this is kept by every turn.

## Main definitions

* `Untouched`, `Settled`: Histories before and after the end.
* `Story`: The history fits the connection.
* `Recorded`: All histories fit.
* `Returns`: A `close` for the connection returns at this event.
* `SaysFin`: Connections whose `close` has returned have said FIN.
* `PeerWaits`: The peer did not close first, and nobody dropped the
  connection, when a `close` returns.

## Theorems

* `story_turn`: Every turn keeps the story.
* `recorded_reachable`: So does every run.
* `past_over`: What can still happen to a connection that is over.
* `saysFin_step`: What decides whether a step keeps the property.
* `saysFin_iff_peerWaits`: What decides it for a run.
* `close_without_fin`: The peer closes first, and no FIN is sent.
-/

namespace SysRust.Tcp

open Function Option

namespace Users

/-- Nothing has happened yet that could end the connection. -/
def Untouched (h : History) : Prop :=
  h.finSent = false ∧ h.peerFirst = false ∧ h.dropped = false

/-- The FIN was sent, unless the peer's came first or a call dropped the
    connection. -/
def Settled (h : History) : Prop :=
  h.established = true → h.reset = false →
    (h.finSent = true ↔ h.peerFirst = false ∧ h.dropped = false)

/-- The history fits the connection. -/
structure Story (c : TcpConn) (h : History) : Prop where
  young : Young c → Untouched h
  opening : Young c → c.state = .synSent → h.established = false
  settled : ¬ Young c → Settled h

/-- Slots that are not in use are closed. -/
def FreeClosed (c : TcpConn) : Prop := c.inUse = false → c.state = .closed

variable {c d : TcpConn} {h h' : History} {g : Nat} {s t : World} {f : History → History}
  {i : Fin TCP_MAX_CONNS} {e : Event}

theorem freeClosed_turn (hc : FreeClosed c) (ht : Turn c h d h') : FreeClosed d := by
  -- A turn that leaves the slot in use began with a state other than closed.
  have hopen : d.inUse = c.inUse → c.state ≠ .closed → FreeClosed d := by
    intro huse hstate hfree
    exact absurd (hc (huse ▸ hfree)) hstate
  cases ht with
  | same huse hstate => exact fun hfree => hstate.trans (hc (huse ▸ hfree))
  | opens huse hold _ | peerFin huse hold _ =>
    exact hopen huse (by rw [hold]; exact TcpState.noConfusion)
  | fin huse hold _ | answered huse hold _ =>
    refine hopen huse ?_
    rcases hold with hold | hold <;> rw [hold] <;> exact TcpState.noConfusion
  | reset _ _ hnew | released _ hnew => exact fun _ => hnew

theorem young_of_state (hc : FreeClosed c) (h : c.state = .established ∨ c.state = .synSent) :
    Young c := by
  refine ⟨?_, h.symm⟩
  rw [← Bool.not_eq_false]
  intro hfree
  rw [hc hfree] at h
  rcases h with h | h <;> exact TcpState.noConfusion h

theorem not_young_of_state (h1 : c.state ≠ .established) (h2 : c.state ≠ .synSent) : ¬ Young c :=
  fun hy => hy.2.elim h2 h1

/-- On a connection that is over, nothing but a reset is noted any more. -/
theorem turn_over (hc : FreeClosed c) (ht : Turn c h d h') (hover : ¬ Young c) :
    ¬ Young d ∧ (h' = h ∨ h' = { h with reset := true }) := by
  refine ⟨fun hd => hover (ht.young hd.1 hd.2), ?_⟩
  cases ht with
  | same | answered => exact Or.inl rfl
  | opens _ hold _ => exact absurd (young_of_state hc (Or.inr hold)) hover
  | peerFin _ hold _ => exact absurd (young_of_state hc (Or.inl hold)) hover
  | fin _ hold _ => exact absurd (young_of_state hc hold) hover
  | reset => exact Or.inr rfl
  | released =>
    exact Or.inl (gaveBack_of_ne (fun he => hover (young_of_state hc (Or.inl he))) h)

theorem settled_reset (h : History) : Settled { h with reset := true } :=
  fun _ hr => absurd hr Bool.noConfusion

/-- The story of a connection that is over. -/
theorem Story.over (hover : ¬ Young c) (hs : Settled h) : Story c h :=
  ⟨fun hc => absurd hc hover, fun hc => absurd hc hover, fun _ => hs⟩

/-- Every turn keeps the story. -/
theorem story_turn (hc : FreeClosed c) (hs : Story c h) (ht : Turn c h d h') : Story d h' := by
  by_cases hyoung : Young c
  · have hun := hs.young hyoung
    cases ht with
    | same huse hstate =>
      refine ⟨fun _ => hun, fun _ hsyn => hs.opening hyoung (hstate ▸ hsyn), fun hover => ?_⟩
      exact absurd ⟨huse ▸ hyoung.1, hstate ▸ hyoung.2⟩ hover
    | opens huse _ hnew =>
      refine ⟨fun _ => hun, fun _ hsyn => ?_, fun hover => ?_⟩
      · rw [hnew] at hsyn
        exact absurd hsyn TcpState.noConfusion
      · exact absurd ⟨huse ▸ hyoung.1, Or.inr hnew⟩ hover
    | peerFin _ _ hnew | fin _ _ hnew =>
      refine Story.over (not_young_of_state ?_ ?_) (fun _ _ => ?_)
      · rw [hnew]
        exact TcpState.noConfusion
      · rw [hnew]
        exact TcpState.noConfusion
      · simp only [hun.1, hun.2.1, hun.2.2, Bool.false_eq_true, Bool.true_eq_false, false_and,
          and_self]
    | answered _ hold _ =>
      refine absurd hyoung (not_young_of_state ?_ ?_) <;>
        rcases hold with hold | hold <;> rw [hold] <;> exact TcpState.noConfusion
    | reset _ hfree _ =>
      exact Story.over (fun hd => Bool.false_ne_true (hfree ▸ hd.1)) (settled_reset h)
    | released hfree _ =>
      refine Story.over (fun hd => Bool.false_ne_true (hfree ▸ hd.1)) (fun hest _ => ?_)
      -- Established it was dropped; before that it never was established.
      rcases hyoung.2 with hstate | hstate
      · have hno := hs.opening hyoung hstate
        simp only [History.gaveBack] at hest
        rw [hno] at hest
        exact absurd hest Bool.false_ne_true
      · simp only [History.gaveBack, hstate, hun.1, beq_self_eq_true, Bool.or_true,
          Bool.false_eq_true, Bool.true_eq_false, and_false]
  · rcases turn_over hc ht hyoung with ⟨hover, hh | hh⟩
    · exact Story.over hover (hh ▸ hs.settled hyoung)
    · exact Story.over hover (hh ▸ settled_reset h)

/-! ### All connections -/

/-- Every connection opened so far has a history that fits: the connection in
    its slot, or, if the slot has been taken again, its end. Connections a
    `close` was called for are over. -/
structure Recorded (s : World) : Prop where
  free : ∀ i, FreeClosed (s.conns i)
  bound : ∀ i g, s.gen i = some g → g < s.opened
  inj : ∀ i j g, s.gen i = some g → s.gen j = some g → i = j
  story : ∀ i g, s.gen i = some g → Story (s.conns i) (s.past g)
  gone : ∀ g, g < s.opened → (∀ i, s.gen i ≠ some g) → Settled (s.past g)
  waits : ∀ g, Waits s g → g < s.opened ∧ ∀ i, s.gen i = some g → ¬ Young (s.conns i)

theorem Recorded.settled (h : Recorded s) (hg : Waits s g) : Settled (s.past g) := by
  rcases h.waits g hg with ⟨hlt, hover⟩
  by_cases hin : ∃ i, s.gen i = some g
  · rcases hin with ⟨i, hi⟩
    exact (h.story i g hi).settled (hover i hi)
  · exact h.gone g hlt (fun i hi => hin ⟨i, hi⟩)

theorem see_past_self (hg : s.gen i = some g) : (s.see i f).past g = f (s.past g) := by
  simp only [World.see, hg, update_self]

theorem see_past_of_ne (hg : s.gen i ≠ some g) : (s.see i f).past g = s.past g := by
  cases hi : s.gen i with
  | none => simp only [World.see, hi]
  | some k =>
    have hgk : g ≠ k := fun he => hg (by rw [hi, he])
    simp only [World.see, hi, update_of_ne hgk]

theorem recorded_boot : Recorded World.boot where
  free := fun _ _ => rfl
  bound := fun _ _ hg => nomatch hg
  inj := fun _ _ _ hg => nomatch hg
  story := fun _ _ hg => nomatch hg
  gone := fun g hg => absurd hg (Nat.not_lt_zero g)
  waits := fun g hg => by
    rcases hg with h | ⟨_, _, _, h⟩
    · exact absurd h Bool.false_ne_true
    · exact absurd h Activity.noConfusion

theorem recorded_slot (h : Recorded s) (hs : SlotStep s t i c f) : Recorded t := by
  have hconn : ∀ j, j ≠ i → t.conns j = s.conns j := by
    intro j hj
    rw [hs.conns, update_of_ne hj]
  have hself : t.conns i = c := by rw [hs.conns, update_self]
  refine ⟨fun j => ?_, ?_, ?_, fun j g hg => ?_, fun g hg hno => ?_, fun g hg => ?_⟩
  · by_cases hj : j = i
    · rw [hj, hself]
      exact freeClosed_turn (h.free i) (hs.turn History.new)
    · rw [hconn j hj]
      exact h.free j
  · rw [hs.gen, hs.opened]
    exact h.bound
  · rw [hs.gen]
    exact h.inj
  · rw [hs.gen] at hg
    rw [hs.past]
    by_cases hj : j = i
    · rw [hj] at hg ⊢
      rw [hself, see_past_self hg]
      exact story_turn (h.free i) (h.story i g hg) (hs.turn _)
    · rw [hconn j hj, see_past_of_ne (fun hi => hj (h.inj j i g hg hi))]
      exact h.story j g hg
  · rw [hs.opened] at hg
    rw [hs.gen] at hno
    rw [hs.past, see_past_of_ne (hno i)]
    exact h.gone g hg hno
  · rw [hs.gen, hs.opened]
    rcases hs.closes g hg with hw | ⟨hgen, hover⟩
    · rcases h.waits g hw with ⟨hlt, hnot⟩
      refine ⟨hlt, fun j hj => ?_⟩
      by_cases hji : j = i
      · rw [hji] at hj ⊢
        rw [hself]
        exact (turn_over (h.free i) (hs.turn History.new) (hnot i hj)).1
      · rw [hconn j hji]
        exact hnot j hj
    · refine ⟨h.bound i g hgen, fun j hj => ?_⟩
      rw [h.inj j i g hj hgen, hself]
      exact hover

theorem recorded_step (h : Recorded s) (hs : Step s e t) : Recorded t := by
  cases hs with
  | slot _ i c f hslot => exact recorded_slot h hslot
  | opens _ remoteIp remotePort i _ halloc hconns _ hgen hopened hpast hcloses =>
    have hfree := tcpAllocConn_free halloc
    have hconn : ∀ j, j ≠ i → t.conns j = s.conns j := by
      intro j hj
      rw [hconns, update_of_ne hj]
    have hold : ∀ j, j ≠ i → t.gen j = s.gen j := by
      intro j hj
      rw [hgen, update_of_ne hj]
    have hnew : t.gen i = some s.opened := by rw [hgen, update_self]
    have hpast' : ∀ g, g < s.opened → t.past g = s.past g := by
      intro g hg
      rw [hpast, update_of_ne (Nat.ne_of_lt hg)]
    refine ⟨fun j => ?_, fun j g hg => ?_, fun j k g hj hk => ?_, fun j g hg => ?_,
      fun g hg hno => ?_, fun g hg => ?_⟩
    · by_cases hj : j = i
      · rw [hj, hconns, update_self]
        exact fun hf => absurd hf Bool.noConfusion
      · rw [hconn j hj]
        exact h.free j
    · rw [hopened]
      by_cases hj : j = i
      · rw [hj, hnew, some.injEq] at hg
        omega
      · rw [hold j hj] at hg
        exact Nat.lt_succ_of_lt (h.bound j g hg)
    · -- The new number is larger than all others.
      by_cases hji : j = i
      · by_cases hki : k = i
        · rw [hji, hki]
        · rw [hji, hnew, some.injEq] at hj
          rw [hold k hki, ← hj] at hk
          exact absurd (h.bound k _ hk) (Nat.lt_irrefl _)
      · rw [hold j hji] at hj
        by_cases hki : k = i
        · rw [hki, hnew, some.injEq] at hk
          rw [← hk] at hj
          exact absurd (h.bound j _ hj) (Nat.lt_irrefl _)
        · rw [hold k hki] at hk
          exact h.inj j k g hj hk
    · by_cases hj : j = i
      · rw [hj, hnew, some.injEq] at hg
        rw [hj, hconns, update_self, hpast, ← hg, update_self]
        refine ⟨fun _ => ⟨rfl, rfl, rfl⟩, fun _ _ => rfl, fun _ hest => ?_⟩
        exact absurd hest Bool.false_ne_true
      · rw [hold j hj] at hg
        rw [hconn j hj, hpast' g (h.bound j g hg)]
        exact h.story j g hg
    · rw [hopened] at hg
      have hlt : g < s.opened := by
        have hne : g ≠ s.opened := fun he => hno i (by rw [hnew, he])
        omega
      rw [hpast' g hlt]
      -- The connection that was in the slot last is over.
      by_cases hi : s.gen i = some g
      · exact (h.story i g hi).settled (fun hy => Bool.false_ne_true (hfree ▸ hy.1))
      · refine h.gone g hlt (fun j hj => ?_)
        by_cases hji : j = i
        · exact hi (hji ▸ hj)
        · exact hno j (by rw [hold j hji, hj])
    · rcases h.waits g (hcloses g hg) with ⟨hlt, hnot⟩
      refine ⟨by rw [hopened]; exact Nat.lt_succ_of_lt hlt, fun j hj => ?_⟩
      by_cases hji : j = i
      · rw [hji, hnew, some.injEq] at hj
        omega
      · rw [hold j hji] at hj
        rw [hconn j hji]
        exact hnot j hj
  | idle _ hstack hgen hopened hpast hcloses =>
    have hconns : t.conns = s.conns := by rw [World.conns, hstack, World.conns]
    refine ⟨?_, ?_, ?_, ?_, ?_, fun g hg => ?_⟩
    · rw [hconns]; exact h.free
    · rw [hgen, hopened]; exact h.bound
    · rw [hgen]; exact h.inj
    · rw [hgen, hconns, hpast]; exact h.story
    · rw [hgen, hopened, hpast]; exact h.gone
    · rw [hgen, hopened, hconns]; exact h.waits g (hcloses g hg)

theorem recorded_reachable (hs : users.Reachable s) : Recorded s := by
  refine Machine.Reachable.invariant Recorded ?_ ?_ hs
  · rintro s rfl
    exact recorded_boot
  · intro s t e h _ he
    exact recorded_step h (step_of_exec he)

/-! ### When a `close` returns -/

/-- A `close` for the connection returns at this event. -/
def Returns (s : World) (g : Nat) : Event → Prop
  | .close _ i => s.gen i = some g ∧ (closeStart s.ticks i s.conns).2.1 = none
  | .closePoll c => ∃ i p, s.calls c = .closing i (some g) p ∧
      (closePoll s.ticks i s.conns p).2 = none
  | _ => False

/-- Where a `close` has returned on a connection that was established and not
    reset, a FIN was sent on it. -/
def SaysFin (s : World) : Prop :=
  ∀ g, s.returned g = true → (s.past g).established = true → (s.past g).reset = false →
    (s.past g).finSent = true

/-- When a `close` returns on a connection that was established and not
    reset, the peer did not close first and no other call had given the slot
    back before. -/
def PeerWaits (s : World) (e : Event) : Prop :=
  ∀ g, Returns s g e → (s.past g).established = true → (s.past g).reset = false →
    (s.past g).peerFirst = false ∧ (s.past g).dropped = false

theorem mark_returned (s : World) (m : Option Nat) (g : Nat) :
    (s.mark m).returned g = true ↔ s.returned g = true ∨ m = some g := by
  cases m with
  | none => simp only [World.mark, reduceCtorEq, or_false]
  | some k =>
    by_cases hg : g = k
    · simp only [World.mark, hg, update_self, or_true]
    · have hk : ¬ k = g := fun he => hg he.symm
      simp only [World.mark, update_of_ne hg, some.injEq, hk, or_false]

/-- A step of a `close` returns exactly if it leaves no wait loop. -/
theorem closed_returned (s : World) (c : Nat) (i : Fin TCP_MAX_CONNS) (m : Option Nat)
    (p : Option Closing) (g : Nat) :
    (s.closed c i m p).returned g = true ↔ s.returned g = true ∨ (m = some g ∧ p = none) := by
  cases p with
  | none => simp only [World.closed, mark_returned, World.goOn, and_true]
  | some p => simp only [World.closed, World.goOn, reduceCtorEq, and_false, or_false]

theorem polled_returned (s : World) (c : Nat) (i : Fin TCP_MAX_CONNS) (conns : Conns)
    (r : Polled) : (s.polled c i conns r).returned = s.returned := by
  cases r <;> simp only [World.polled, World.goOn, World.setConns, World.see_returned]

/-- Only the steps of `close` return from a `close`. -/
theorem returned_iff (he : s.exec e = some t) (g : Nat) :
    t.returned g = true ↔ s.returned g = true ∨ Returns s g e := by
  cases ran_of_exec he with
  | @connect c ip port hc =>
    have hret : (s.onConnect c ip port).returned = s.returned := by
      rw [World.onConnect]
      cases connectStart ip port s.ticks s.stack <;> rfl
    simp only [hret, Returns, or_false]
  | poll hc =>
    rw [World.onPoll, polled_returned]
    simp only [Returns, or_false]
  | send i data =>
    simp only [World.onSend, World.setConns, World.see_returned, Returns, or_false]
  | recv i r => simp only [World.onRecv, World.setConns, Returns, or_false]
  | close i hc =>
    rw [World.onClose, closed_returned]
    simp only [World.setConns, World.see_returned, Returns]
  | @closePoll c i m p hc =>
    rw [World.onClosePoll, closed_returned]
    simp only [World.setConns, World.see_returned, Returns, hc, Activity.closing.injEq]
    refine or_congr Iff.rfl ⟨fun h => ⟨i, p, ⟨rfl, h.1, rfl⟩, h.2⟩, ?_⟩
    rintro ⟨j, q, ⟨rfl, hm, rfl⟩, hnone⟩
    exact ⟨hm, hnone⟩
  | rx srcIp seg =>
    have hret : (s.onRx srcIp seg).returned = s.returned := by
      rw [World.onRx]
      cases tcpFindConn s.conns srcIp seg.srcPort seg.dstPort <;>
        simp only [World.setConns, World.see_returned]
    simp only [hret, Returns, or_false]
  | tick => simp only [Returns, or_false]

/-- After a `close` was called for a connection, nothing but a reset is noted
    about it. -/
theorem past_over (h : Recorded s) (hs : Step s e t) (hg : Waits s g) :
    t.past g = s.past g ∨ t.past g = { s.past g with reset := true } := by
  rcases h.waits g hg with ⟨hlt, hnot⟩
  cases hs with
  | slot _ i c f hslot =>
    rw [hslot.past]
    by_cases hi : s.gen i = some g
    · rw [see_past_self hi]
      exact (turn_over (h.free i) (hslot.turn _) (hnot i hi)).2
    · exact Or.inl (see_past_of_ne hi)
  | opens _ _ _ _ _ _ _ _ _ _ hpast _ =>
    rw [hpast, update_of_ne (Nat.ne_of_lt hlt)]
    exact Or.inl rfl
  | idle _ _ _ _ hpast _ =>
    rw [hpast]
    exact Or.inl rfl

theorem closed_past (s : World) (c : Nat) (i : Fin TCP_MAX_CONNS) (m : Option Nat)
    (p : Option Closing) : (s.closed c i m p).past = s.past := by
  cases p with
  | none => rw [World.closed, World.mark_eq]; rfl
  | some p => rfl

/-- The step at which a `close` returns sends nothing and tells nothing new
    about its connection. -/
theorem past_returns (h : Recorded s) (he : s.exec e = some t) (hg : Returns s g e) :
    t.past g = s.past g := by
  cases e with
  | close c i =>
    cases ran_of_exec he
    rcases hg with ⟨hgen, hnone⟩
    rw [World.onClose, closed_past]
    simp only [World.setConns]
    rw [see_past_self hgen]
    refine sent_quiet (fun o ho => ?_) _
    have hcases := closeStart_cases s.ticks i s.conns
    generalize closeStart s.ticks i s.conns = r at hcases hnone ho
    cases hcases with
    | free | gives => exact absurd ho List.not_mem_nil
    | fin | lingers => exact absurd hnone (some_ne_none _)
  | closePoll c =>
    rcases hg with ⟨i, p, hc, hnone⟩
    simp only [World.exec, hc, some.injEq] at he
    rw [← he, World.onClosePoll, closed_past, hnone]
    simp only [World.setConns]
    by_cases hi : s.gen i = some g
    · -- The connection itself is over, so it is not the one that is dropped.
      have hover := (h.waits g (Or.inr ⟨c, i, p, hc⟩)).2 i hi
      rw [see_past_self hi]
      exact gaveBack_of_ne (fun hst => hover (young_of_state (h.free i) (Or.inl hst))) _
    · exact see_past_of_ne hi
  | connect | poll | send | recv | rx | tick => exact absurd hg id

/-- In a state that is good, the next one is good exactly if a `close` that
    returns does so on a connection the peer did not close first. -/
theorem saysFin_step (h : Recorded s) (hgood : SaysFin s) (he : s.exec e = some t) :
    SaysFin t ↔ PeerWaits s e := by
  have hrec := recorded_step h (step_of_exec he)
  constructor
  · intro ht g hg hest hreset
    have hret : t.returned g = true := (returned_iff he g).mpr (Or.inr hg)
    have hset := hrec.settled (Or.inl hret)
    have hfin := ht g hret
    rw [past_returns h he hg] at hset hfin
    exact (hset hest hreset).mp (hfin hest hreset)
  · intro hwaits g hret hest hreset
    rcases (returned_iff he g).mp hret with hold | hg
    · rcases past_over h (step_of_exec he) (Or.inl hold) with hp | hp
      · rw [hp] at hest hreset ⊢
        exact hgood g hold hest hreset
      · rw [hp] at hreset
        exact absurd hreset Bool.noConfusion
    · have hset := hrec.settled (Or.inl hret)
      rw [past_returns h he hg] at hest hreset hset ⊢
      exact (hset hest hreset).mpr (hwaits g hg hest hreset)

theorem saysFin_boot : SaysFin World.boot := fun _ hret => absurd hret Bool.false_ne_true

/-- In every run: a FIN was sent on every connection that was established, not
    reset, and closed, in every state of the run, exactly if no `close`
    returns on such a connection that the peer closed first or that another
    call had dropped. -/
theorem saysFin_iff_peerWaits {es : List Event} {s : World}
    (hrun : users.run World.boot es = some s) :
    users.Throughout World.boot es SaysFin ↔ users.Keeps World.boot es PeerWaits :=
  Machine.throughout_iff_keeps rfl saysFin_boot
    (fun _ _ _ hu he h => saysFin_step (recorded_reachable hu) h he) hrun

/-! ### The peer closes first -/

/-- A segment from port 80 of the server to the first local port. -/
def fromServer (flags : BitVec 8) : Segment where
  srcPort := 80
  dstPort := 49152
  seq := 5000
  ack := 2
  flags := flags
  payload := []

/-- The slot of the connection. -/
def onlySlot : Fin TCP_MAX_CONNS := ⟨0, zero_lt_conns⟩

/-- A connection that is established. -/
def openConnection : List Event :=
  [.connect 0 0x0A000202 80, .rx 0x0A000202 (fromServer (TCP_SYN ||| TCP_ACK)), .poll 0]

/-- We close it, and the peer answers with its FIN. -/
def weClose : List Event :=
  openConnection ++ [.close 0 onlySlot, .rx 0x0A000202 (fromServer (TCP_FIN ||| TCP_ACK)),
    .closePoll 0] ++ List.replicate 50 .tick ++ [.closePoll 0]

/-- The peer closes it, and then we do. -/
def peerCloses : List Event :=
  openConnection ++ [.rx 0x0A000202 (fromServer (TCP_FIN ||| TCP_ACK)), .close 0 onlySlot] ++
    List.replicate 50 .tick ++ [.closePoll 0]

/-- A connection that we close first. -/
theorem saysFin_weClose :
    ∃ s, users.run World.boot weClose = some s ∧ s.returned 0 = true ∧
      (s.past 0).finSent = true ∧
      (users.Throughout World.boot weClose SaysFin ↔ users.Keeps World.boot weClose PeerWaits) := by
  have hrun : (users.run World.boot weClose).map (fun s => (s.returned 0, (s.past 0).finSent)) =
      some (true, true) := by
    decide
  rcases map_eq_some_iff.mp hrun with ⟨s, hs, hres⟩
  exact ⟨s, hs, congrArg Prod.fst hres, congrArg Prod.snd hres, saysFin_iff_peerWaits hs⟩

/-- The peer closes first. The connection was established and not reset, our
    `close` has returned, and no FIN was sent. -/
theorem close_without_fin :
    ∃ s, users.Reachable s ∧ s.returned 0 = true ∧
      s.past 0 = { established := true, reset := false, finSent := false, peerFirst := true,
                   dropped := false } ∧ ¬ SaysFin s := by
  have hrun : (users.run World.boot peerCloses).map (fun s => (s.returned 0, s.past 0)) =
      some (true, { established := true, reset := false, finSent := false, peerFirst := true,
                    dropped := false }) := by
    decide
  rcases map_eq_some_iff.mp hrun with ⟨s, hs, hres⟩
  have hret : s.returned 0 = true := congrArg Prod.fst hres
  have hpast := congrArg Prod.snd hres
  simp only at hpast
  refine ⟨s, Machine.reachable_run (Machine.Reachable.start _ rfl) hs, hret, hpast, fun h => ?_⟩
  have hfin := h 0 hret (by rw [hpast]) (by rw [hpast])
  rw [hpast] at hfin
  exact absurd hfin Bool.false_ne_true

end Users

end SysRust.Tcp
