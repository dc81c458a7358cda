import JuampiOs.Net.Runs

/-!
# Closing

`net_tcp_close` sends a FIN and waits in FIN_WAIT, which `tcp_input` ends in two places: once
the peer's FIN is there and nothing is outstanding, and at once when the peer's FIN arrives. The
second does not look at whether the FIN of the connection was acknowledged, and the wait has a
deadline of its own. `Closing` is what a connection in FIN_WAIT has behind it;
`run_close_orderly` says when FIN_WAIT ends in order.
-/

namespace JuampiOs.Net

open Lib Lib.Lang List Event TcpConn

/-- The peer's FIN was taken, in order, since the record was filled in. -/
def FinReceived (i : Slot) (tr : List Event) : Prop :=
  ∃ seg c, .finSeen i seg c ∈ since i tr ∧ c.FinNext seg

/-- The last segment sent was a FIN, and since then its end was acknowledged. -/
def FinAcked (i : Slot) (x : Point) : Prop :=
  (∃ c, lastEmit i x.trace = some (tcpFin ||| tcpAckFlag, 0, c) ∧
    (x.state.conns i).sndNxt = c.sndNxt + 1) ∧
  AckSeen i (x.state.conns i).sndNxt x.trace

/-- A FIN that is taken in FIN_WAIT is taken with nothing outstanding, and the record is not
released in FIN_WAIT. -/
def Event.ClosesInOrder : Event → Prop
  | .finSeen _ _ c => c.state = .finWait → c.retxLen = 0
  | .released _ c => c.state ≠ .finWait
  | _ => True

instance : DecidablePred Event.ClosesInOrder
  | .finSeen .. => (inferInstance : Decidable (_ → _))
  | .released .. => (inferInstance : Decidable (_ ≠ _))
  | .called .. | .returned .. | .opened .. | .passive .. | .emit .. | .emitted .. | .sent ..
  | .delivered .. | .gaveUp .. | .stored .. | .received .. => isTrue trivial

/-- The peer's FIN was taken in FIN_WAIT, with nothing outstanding. -/
def Settled (i : Slot) (tr : List Event) : Prop :=
  ∃ seg c, .finSeen i seg c ∈ since i tr ∧ c.state = .finWait ∧ c.retxLen = 0

/-- What a connection that has sent its FIN has behind it. -/
structure Closing (i : Slot) (c : TcpConn) (tr : List Event) : Prop where
  fin : ∀ v, lastEmit i tr = some v → v.1 = tcpFin ||| tcpAckFlag → InFlight i v c tr
  waiting : c.state = .finWait → ∃ c₀, lastEmit i tr = some (tcpFin ||| tcpAckFlag, 0, c₀)
  dropped : c.state = .finWait → DropSeen i tr → disturbed i tr = true
  inUse : (∀ e ∈ tr, e.ClosesInOrder) → c.state = .finWait → c.inUse = true
  settled : Settled i tr → c.retxLen = 0 ∧ (c.state = .finWait ∨ c.state = .done)
  received : c.peerFin = true → FinReceived i tr

section Closing

variable {i : Slot} {n : Stack} {es tr : List Event} {c c' : TcpConn}

theorem disturbed_mono (es : List Event) (h : disturbed i tr = true) :
    disturbed i (es ++ tr) = true := by
  by_contra hnot
  rw [disturbed_append es (by simpa using hnot)] at h
  exact absurd h (by decide)

theorem past_of_finWait (h : c.state = .finWait) : c.state ≠ .listen ∧ c.state ≠ .synRcvd := by
  rw [h]
  decide

theorem FinReceived.append (hes : ∀ e ∈ es, e.opens i = false) (h : FinReceived i tr) :
    FinReceived i (es ++ tr) := by
  obtain ⟨seg, c, hmem, hnext⟩ := h
  exact ⟨seg, c, mem_since_append hes hmem, hnext⟩

theorem Settled.of_append (hes : ∀ e ∈ es, e.opens i = false) (h : Settled i (es ++ tr)) :
    (∃ seg c, .finSeen i seg c ∈ es ∧ c.state = .finWait ∧ c.retxLen = 0) ∨ Settled i tr := by
  obtain ⟨seg, c, hmem, hrest⟩ := h
  rw [since_append hes, mem_append] at hmem
  exact hmem.imp (⟨seg, c, ·, hrest⟩) (⟨seg, c, ·, hrest⟩)

section

variable (hs : Served n tr i es c)
include hs

theorem Served.finWait_or_done (h : (n.conns i).state = .finWait ∨ (n.conns i).state = .done) :
    c.state = .finWait ∨ c.state = .done := by
  obtain hwait | hdone := h
  · obtain ⟨hl, hr⟩ := past_of_finWait hwait
    cases hs with
    | passive srcIp seg ns hfind hsyn hlisten => exact absurd (Stack.listener_spec hlisten).2.1 hl
    | answer srcIp seg bytes now hhead hstate => exact absurd hstate hr
    | ack => rw [ackUpdate_state_of_ne _ _ hr]; exact .inl hwait
    | synAck srcIp seg d tr' htr hd hrst hstate => rw [hwait] at hstate; exact absurd hstate (by decide)
    | reset | giveUp | finish | closed => exact .inr rfl
    | _ => exact .inl hwait
  · exact .inr (hs.done hdone)

theorem Served.settled (h : Closing i (n.conns i) tr)
    (hset : Settled i (es ++ tr)) : c.retxLen = 0 ∧ (c.state = .finWait ∨ c.state = .done) := by
  obtain ⟨seg, d, hmem, hd, hgone⟩ | hold := Settled.of_append hs.opens hset
  · -- this piece is the one that takes the FIN
    cases hs with
    | acceptFin =>
      obtain ⟨-, -, rfl⟩ := finSeen.inj (mem_singleton.1 hmem)
      exact ⟨hgone, .inl hd⟩
    | _ => simp at hmem
  · obtain ⟨hlen, hstate⟩ := h.settled hold
    refine ⟨?_, hs.finWait_or_done hstate⟩
    have hpast : (n.conns i).state ≠ .listen ∧ (n.conns i).state ≠ .synRcvd := by
      obtain hst | hst := hstate <;> rw [hst] <;> decide
    obtain ⟨_, _, _, _, hlisten, _⟩ | ⟨_, _, _, _, _, hst, _⟩ |
      ⟨_, _, _, _, hfate | ⟨_, _, _, _, _, hfate⟩ | ⟨_, _, _, rfl⟩⟩ := hs.outstanding
    · exact absurd (Stack.listener_spec hlisten).2.1 hpast.1
    · exact absurd hst hpast.2
    · exact hfate.trans hlen
    · exact hfate
    · rfl

theorem Served.received (h : Closing i (n.conns i) tr)
    (hp : c.peerFin = true) : FinReceived i (es ++ tr) := by
  cases hs with
  | acceptFin srcIp seg d hmem hrst hd hnext => exact ⟨seg, n.conns i, by simp [Event.opens], hnext⟩
  | answer =>
    rw [record_peerFin] at hp
    exact (h.received hp).append (by simp [Event.opens])
  | ack =>
    rw [ackUpdate_peerFin] at hp
    exact (h.received hp).append (by simp [Event.opens])
  | _ => exact (h.received hp).append (by simp [Event.opens])

theorem Closing.served (h : Closing i (n.conns i) tr) : Closing i c (es ++ tr) where
  fin v hv hfin := by
    obtain ⟨srcIp, seg, ns, rfl, hlisten, _⟩ | ⟨srcIp, seg, bytes, now, _, _, _, rfl, _⟩ |
      ⟨_, _, _, hes, _⟩ := hs.outstanding
    · exact absurd (Stack.listener_spec hlisten).2.1 (h.fin v hv hfin).listen
    · -- the last segment is a SYN-ACK
      simp only [cons_append, nil_append, lastEmit, if_true, Option.some.injEq] at hv
      subst hv
      exact absurd (show tcpSyn ||| tcpAckFlag = tcpFin ||| tcpAckFlag from hfin) (by decide)
    · exact InFlight.served hs (h.fin v ((lastEmit_append hes tr).symm.trans hv) hfin)
  waiting hc := by
    have hwait := hs.finWait hc
    obtain ⟨hl, hr⟩ := past_of_finWait hwait
    rw [lastEmit_append (hs.silent hl hr)]
    exact h.waiting hwait
  dropped hc hd := by
    have hwait := hs.finWait hc
    obtain ⟨hl, hr⟩ := past_of_finWait hwait
    obtain ⟨e, hmem, hdrops⟩ | hd := DropSeen.of_append (hs.silent hl hr) hd
    · rw [hs.done_of_drops hmem hdrops] at hc
      exact absurd hc (by decide)
    · exact disturbed_mono es (h.dropped hwait hd)
  inUse hok hc :=
    hs.inUse.trans (h.inUse (fun e he => hok e (mem_append_right _ he)) (hs.finWait hc))
  settled hset := hs.settled h hset
  received hp := hs.received h hp

end

/-- An event that neither opens a record, nor sends, nor delivers, nor takes a FIN. -/
def Event.isPlain (i : Slot) : Event → Bool
  | .opened j _ _ => j ≠ i
  | .emit j _ _ _ => j ≠ i
  | .delivered j _ _ _ => j ≠ i
  | .gaveUp j _ => j ≠ i
  | .finSeen j _ _ => j ≠ i
  | _ => true

theorem Event.of_isPlain {e : Event} (h : e.isPlain i = true) :
    e.opens i = false ∧ e.emits i = false ∧ e.drops i = false := by
  cases e <;> simp_all [isPlain, opens, emits, drops]

theorem InFlight.congr {v : UInt8 × Nat × TcpConn} (h : InFlight i v c tr)
    (hl : c'.state ≠ .listen) (hr : c'.state ≠ .synRcvd) (hnxt : c'.sndNxt = c.sndNxt)
    (hlen : c'.retxLen = c.retxLen) (hseq : c'.retxSeq = c.retxSeq) : InFlight i v c' tr :=
  ⟨hl, hr, h.last, hnxt.trans h.nxt, by rw [hlen, hseq, hnxt]; exact h.fate⟩

/-- A plain event, with a change of the record that concerns neither its state nor what it has
sent. -/
theorem Closing.plain {e : Event} (h : Closing i c tr) (he : e.isPlain i = true)
    (hstate : c'.state = c.state) (hnxt : c'.sndNxt = c.sndNxt) (hlen : c'.retxLen = c.retxLen)
    (hseq : c'.retxSeq = c.retxSeq) (hpeer : c'.peerFin = c.peerFin)
    (huse : e.ClosesInOrder → c.state = .finWait → c'.inUse = c.inUse) :
    Closing i c' (e :: tr) := by
  obtain ⟨ho, hem, hdr⟩ := of_isPlain he
  have hes : ∀ a ∈ [e], a.opens i = false ∧ a.emits i = false :=
    forall_mem_singleton.2 ⟨ho, hem⟩
  have hop : ∀ a ∈ [e], a.opens i = false := forall_mem_singleton.2 ho
  refine ⟨?_, ?_, ?_, ?_, ?_, ?_⟩
  · intro v hv hfin
    have hfly := (h.fin v ((lastEmit_cons tr ho hem).symm.trans hv) hfin)
    exact (hfly.congr (hstate ▸ hfly.listen) (hstate ▸ hfly.synRcvd) hnxt hlen hseq).append hes
  · intro hc
    rw [lastEmit_cons tr ho hem]
    exact h.waiting (hstate ▸ hc)
  · intro hc hd
    obtain ⟨a, hmem, hdrops⟩ | hd := DropSeen.of_append hes hd
    · rw [mem_singleton.1 hmem, hdr] at hdrops
      exact absurd hdrops (by decide)
    · exact disturbed_mono [e] (h.dropped (hstate ▸ hc) hd)
  · intro hok hc
    rw [hstate] at hc
    rw [huse (hok e (by simp)) hc]
    exact h.inUse (fun a ha => hok a (by simp [ha])) hc
  · intro hset
    rw [hlen, hstate]
    obtain ⟨seg, d, hmem, _⟩ | hold := Settled.of_append hop hset
    · rw [← mem_singleton.1 hmem] at he
      simp [isPlain] at he
    · exact h.settled hold
  · exact fun hp => (h.received (hpeer ▸ hp)).append hop

theorem Emits.state {flags : UInt8} {len : Nat} (h : Emits n tr i flags len) :
    (n.conns i).state = .synSent ∨ (n.conns i).state = .established := by
  cases h <;> simp [*]

theorem Closing.emit {flags : UInt8} {len : Nat} {bytes : List UInt8} (now : UInt64)
    (hemits : Emits n tr i flags len) (hbytes : bytes ≠ []) (h : Closing i (n.conns i) tr) :
    Closing i ((n.conns i).record flags len bytes now)
      (.sent i bytes (n.conns i) :: .emit i flags len (n.conns i) :: tr) := by
  have hstate : (n.conns i).state ≠ .finWait ∧ (n.conns i).state ≠ .done := by
    obtain hs | hs := hemits.state <;> rw [hs] <;> decide
  have hop : ∀ a ∈ [sent i bytes (n.conns i), .emit i flags len (n.conns i)],
      a.opens i = false := by
    simp [opens]
  refine ⟨?_, ?_, ?_, ?_, ?_, ?_⟩
  · intro v hv hfin
    simp only [lastEmit, if_true, Option.some.injEq] at hv
    subst hv
    obtain rfl : flags = tcpFin ||| tcpAckFlag := hfin
    refine inFlight_record i now tr ?_ ?_ ?_ hbytes
    · obtain hs | hs := hemits.state <;> rw [hs] <;> decide
    · obtain hs | hs := hemits.state <;> rw [hs] <;> decide
    · exact Nat.succ_ne_zero len
  · exact fun hc => absurd hc (by rw [record_state]; exact hstate.1)
  · exact fun hc => absurd hc (by rw [record_state]; exact hstate.1)
  · exact fun _ hc => absurd hc (by rw [record_state]; exact hstate.1)
  · intro hset
    obtain ⟨seg, d, hmem, _⟩ | hold := Settled.of_append hop hset
    · simp at hmem
    · exact absurd (h.settled hold).2 (by simp [hstate])
  · intro hp
    rw [record_peerFin] at hp
    exact (h.received hp).append hop

theorem Closing.acted (ha : Acted n tr i es c) (h : Closing i (n.conns i) tr) :
    Closing i c (es ++ tr) := by
  cases ha with
  | connect | listen =>
    refine ⟨?_, by rintro ⟨⟩, by rintro ⟨⟩, fun _ => by rintro ⟨⟩, ?_, by rintro ⟨⟩⟩
    · simp [lastEmit]
    · rintro ⟨_, _, hmem, _⟩
      simp [opens] at hmem
  | emit flags len bytes now hemits hbytes => exact h.emit now hemits hbytes
  | emitted | drain => exact h.plain rfl rfl rfl rfl rfl rfl fun _ _ => rfl
  | release => exact h.plain rfl rfl rfl rfl rfl rfl fun hok hc => absurd hc hok
  | waitFin d hfly huse hdrop =>
    refine ⟨?_, fun _ => ⟨d, hfly.last⟩, fun _ => hdrop, fun _ _ => huse, ?_, h.received⟩
    · intro v hv hfin
      exact (h.fin v hv hfin).congr (by simp) (by simp) rfl rfl rfl
    · exact fun hset => ⟨(h.settled hset).1, .inl rfl⟩

theorem Closing.skips : Skips i (Closing i) := by
  intro c e tr he h
  refine h.plain ?_ rfl rfl rfl rfl rfl fun _ _ => rfl
  cases e <;> simp_all [slot, isPlain]

end Closing

theorem closing_tracked (i : Slot) : Tracked i (Closing i) where
  zero := ⟨nofun, nofun, nofun, nofun, fun ⟨_, _, hmem, _⟩ => absurd hmem (by simp [since]), nofun⟩
  skips := Closing.skips
  served _ _ _ _ hs h := h.served hs
  acted _ _ _ _ ha h := h.acted ha

section Orderly

variable {x y : Point} {i : Slot}

theorem consumed_fin : UInt32.ofNat (TcpConn.consumed (tcpFin ||| tcpAckFlag) 0) = 1 := by decide

theorem Closing.fate (h : Closing i (x.state.conns i) x.trace)
    (hcalm : disturbed i x.trace = false) (hwait : (x.state.conns i).state = .finWait) :
    FinAcked i x ∨ (x.state.conns i).retxLen ≠ 0 ∧
      (x.state.conns i).retxSeq = (x.state.conns i).sndNxt := by
  obtain ⟨c, hlast⟩ := h.waiting hwait
  have hfly := h.fin _ hlast rfl
  obtain hout | hack | hdrop := hfly.fate
  · exact .inr hout
  · exact .inl ⟨⟨c, hlast, by rw [hfly.nxt, consumed_fin]⟩, hack⟩
  · rw [h.dropped hwait hdrop] at hcalm
    exact absurd hcalm (by decide)

theorem Api.leavesFinWait (hxy : Api x y) (hwait : (x.state.conns i).state = .finWait)
    (hdone : (y.state.conns i).state = .done) :
    (∃ e, y.trace = e :: x.trace ∧ e.drops i = true) ∨
    ((x.state.conns i).peerFin = true ∧ ((x.state.conns i).retxLen = 0 ∨
      ∃ seg c, .finSeen i seg c ∈ since i x.trace ∧ c.state = .finWait)) := by
  have hne : (x.state.conns i).state ≠ .done := by
    rw [hwait]
    decide
  obtain heq | ⟨es, hy, hs | ha⟩ := hxy.at_slot i
  · exact absurd (heq ▸ hdone) hne
  · generalize y.state.conns i = c at hs hdone
    cases hs with
    | reset srcIp seg hfind hrst => exact .inl ⟨_, hy, by simp [drops, hrst]⟩
    | giveUp hretx => exact .inl ⟨_, hy, by simp [drops]⟩
    | finish seg d hmem hd hstate hpeer => exact .inr ⟨hpeer, .inr ⟨seg, d, hmem, hd⟩⟩
    | closed hstate hretx hpeer => exact .inr ⟨hpeer, .inl hretx⟩
    | answer => exact absurd ((record_state _ _ _ _ _).symm.trans hdone) hne
    | ack => exact absurd (ackUpdate_state_eq _ _ (by decide) hdone) hne
    | passive | synAck => cases hdone
    | _ => exact absurd hdone hne
  · generalize y.state.conns i = c at ha hdone
    cases ha with
    | connect | listen | waitFin => cases hdone
    | emit => exact absurd ((record_state _ _ _ _ _).symm.trans hdone) hne
    | _ => exact absurd hdone hne

end Orderly

/-- **Orderly close.** In a run in which every FIN that is taken in FIN_WAIT comes with or after the
acknowledgement of the connection's own FIN, no record is released in FIN_WAIT,
and the connection is not finished at once while `tcp_emit` transmits for it: a connection in
FIN_WAIT is in use, and its FIN was acknowledged or is the segment to retransmit; and it goes to
DONE, other than by RST or giving up, only with its FIN acknowledged and the peer's taken. -/
theorem run_close_orderly {x : Point} (hrun : Visited x) (hok : ∀ e ∈ x.trace, e.ClosesInOrder)
    (i : Slot) (hcalm : disturbed i x.trace = false)
    (hwait : (x.state.conns i).state = .finWait) :
    (x.state.conns i).inUse = true ∧
    (FinAcked i x ∨ (x.state.conns i).retxLen ≠ 0 ∧
      (x.state.conns i).retxSeq = (x.state.conns i).sndNxt) ∧
    ∀ y, Moves x y → (y.state.conns i).state = .done →
      (∃ e, y.trace = e :: x.trace ∧ e.drops i = true) ∨
      (FinAcked i x ∧ FinReceived i x.trace) := by
  have h := hrun.stepped.track (closing_tracked i)
  refine ⟨h.inUse hok hwait, h.fate hcalm hwait, fun y hxy hdone => ?_⟩
  obtain rfl | hxy := moves_step hxy
  · rw [hwait] at hdone
    exact absurd hdone (by decide)
  obtain hdrop | ⟨hpeer, hretx⟩ := hxy.leavesFinWait hwait hdone
  · exact .inl hdrop
  have hgone : (x.state.conns i).retxLen = 0 := by
    obtain hretx | ⟨seg, c, hmem, hc⟩ := hretx
    · exact hretx
    · have hev := hok _ (mem_of_mem_since hmem) hc
      exact (h.settled ⟨seg, c, hmem, hc, hev⟩).1
  exact .inr ⟨(h.fate hcalm hwait).resolve_right fun hout => hout.1 hgone, h.received hpeer⟩

/-- The host closes its connection, up to the wait for the answers. -/
def closing : List Move :=
  connected ++ [.call (.tcpClose 0), .clock 10, .sent true, .clock 10, .clock 11]

/-- The FIN has been sent. -/
theorem run_close_orderly_closing :
    ((play hostMac 1000 closing).state.conns 0).state = .finWait ∧
    ((play hostMac 1000 closing).state.conns 0).inUse = true ∧
    (FinAcked 0 (play hostMac 1000 closing) ∨
      ((play hostMac 1000 closing).state.conns 0).retxLen ≠ 0 ∧
      ((play hostMac 1000 closing).state.conns 0).retxSeq =
        ((play hostMac 1000 closing).state.conns 0).sndNxt) := by
  have hok : ∀ e ∈ (play hostMac 1000 closing).trace, e.ClosesInOrder := by decide +kernel
  have hcalm : disturbed 0 (play hostMac 1000 closing).trace = false := by decide +kernel
  have hwait : ((play hostMac 1000 closing).state.conns 0).state = .finWait := by decide +kernel
  have h := run_close_orderly (visited_play hostMac 1000 closing) hok 0 hcalm hwait
  exact ⟨hwait, h.1, h.2.1⟩

/-- A segment on connection `i` that acknowledges everything before `e`. -/
def Event.acksTo (i : Slot) (e : UInt32) : Event → Bool
  | .delivered j _ seg _ => j = i && !seg.isRst && seg.isAck && !seqLt seg.ack e
  | _ => false

theorem AckSeen.acksTo {i : Slot} {e : UInt32} {tr : List Event} (h : AckSeen i e tr) :
    (sinceEmit i tr).any (Event.acksTo i e) = true := by
  obtain ⟨srcIp, seg, c, hmem, hrst, hack, hseq⟩ := h
  exact any_eq_true.2 ⟨_, hmem, by simp [Event.acksTo, hrst, hack, hseq]⟩

/-- The peer's FIN crosses that of the host and does not acknowledge it. -/
def finsCross : List Move :=
  closing ++ [peerSends 5001 1 (tcpFin ||| tcpAckFlag) [], .sent true]

/-- The connection is done, without RST and without giving up, before its FIN is
acknowledged. -/
theorem closes_unacknowledged : ∃ x y, Visited x ∧ Moves x y ∧
    (x.state.conns 0).state = .finWait ∧ (y.state.conns 0).state = .done ∧
    (∀ e ∈ y.trace, e.drops 0 = false) ∧ ¬FinAcked 0 x := by
  have hx : ((play hostMac 130 finsCross).state.conns 0).state = .finWait := by decide +kernel
  have hy : ((play hostMac 131 finsCross).state.conns 0).state = .done := by decide +kernel
  have hdrops : ∀ e ∈ (play hostMac 131 finsCross).trace, e.drops 0 = false := by decide +kernel
  have hunacked : (sinceEmit 0 (play hostMac 130 finsCross).trace).any
      (acksTo 0 ((play hostMac 130 finsCross).state.conns 0).sndNxt) = false := by
    decide +kernel
  refine ⟨_, _, visited_play hostMac 130 finsCross, moves_play fun heq => ?_, hx, hy, hdrops, ?_⟩
  · rw [heq, hx] at hy
    exact absurd hy (by decide)
  · intro hacked
    rw [hacked.2.acksTo] at hunacked
    exact absurd hunacked (by decide)

end JuampiOs.Net
