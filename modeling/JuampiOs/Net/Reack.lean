import JuampiOs.Net.Runs

/-!
# Acknowledging what arrives again

A peer whose segment was acknowledged but that has not seen the acknowledgement sends the
segment again. `tcp_input` answers every segment with data; a FIN it answers only in order, and
a SYN never once the connection is established (`segment_reacked_iff`).
-/

namespace JuampiOs.Net

open Lib Lib.Lang List TcpConn Stack

/-- The last thing that happened, after `tr`, is that a segment with ACK set and the current
`rcv_nxt` of connection `i` was handed to `ip_send`. -/
def Acknowledging (i : Slot) (tr : List Event) (z : Point) : Prop :=
  ∃ bytes es, z.trace = .sent i bytes (z.state.conns i) :: (es ++ tr) ∧
    (TcpHdr.parse bytes).flags &&& tcpAckFlag ≠ 0 ∧
    (TcpHdr.parse bytes).ack = (z.state.conns i).rcvNxt

section Sure

variable {P : Point → Prop} {x : Point}

@[simp] theorem sure_stack {Q : Stack → Point → Prop} : Sure P stack x Q ↔ Q x.state x := Iff.rfl

variable {Q : Unit → Point → Prop}

@[simp] theorem sure_commit {n : Stack} {es : List Event} :
    Sure P (commit n es) x Q ↔ P ⟨n, es ++ x.trace⟩ ∨ Q () ⟨n, es ++ x.trace⟩ := Iff.rfl

@[simp] theorem sure_conn {i : Slot} {Q : TcpConn → Point → Prop} :
    Sure P (conn i) x Q ↔ Q (x.state.conns i) x := Iff.rfl

@[simp] theorem sure_update {i : Slot} {f : TcpConn → TcpConn} {es : TcpConn → List Event} :
    Sure P (update i f es) x Q ↔
      P ⟨x.state.setConn i (f (x.state.conns i)), es (x.state.conns i) ++ x.trace⟩ ∨
      Q () ⟨x.state.setConn i (f (x.state.conns i)), es (x.state.conns i) ++ x.trace⟩ := Iff.rfl

end Sure

section Reack

variable {i : Slot} {tr : List Event} {x : Point} {srcIp : UInt32} {seg : Segment}
  {Q : Unit → Point → Prop}

section

variable (htr : ∃ es, x.trace = es ++ tr)
include htr

theorem tcpAck_sure : Sure (Acknowledging i tr) (tcpAck i) x Q := by
  obtain ⟨es, hes⟩ := htr
  simp only [tcpAck, sure_bind, sure_stack, sure_update, id, setConn_self]
  refine .inl ⟨_, es, congrArg (cons _) hes, ?_, ?_⟩
  · rw [TcpConn.segment, TcpHdr.parse_bytes]
    show tcpAckFlag &&& tcpAckFlag ≠ 0
    decide
  · rw [TcpConn.segment, TcpHdr.parse_bytes]

theorem tcpData_sure (hdata : seg.payload ≠ []) :
    Sure (Acknowledging i tr) (tcpData i seg) x Q := by
  simp only [tcpData, sure_bind, sure_stack, if_pos hdata]
  split
  · simp only [sure_bind, sure_commit]
    obtain ⟨es, hes⟩ := htr
    exact .inr (tcpAck_sure ⟨_ :: es, congrArg (cons _) hes⟩)
  · exact tcpAck_sure htr

theorem tcpFinSeg_sure (hfin : (x.state.conns i).FinNext seg) :
    Sure (Acknowledging i tr) (tcpFinSeg i seg) x Q := by
  simp only [tcpFinSeg, sure_bind, sure_conn, if_pos hfin, sure_update]
  obtain ⟨es, hes⟩ := htr
  exact .inr (tcpAck_sure ⟨_ :: es, congrArg (cons _) hes⟩)

end

theorem finNext_ackUpdate {c : TcpConn} : (c.ackUpdate seg).FinNext seg ↔ c.FinNext seg := by
  simp [FinNext]

section

variable (hstate : (x.state.conns i).state = .established ∨ (x.state.conns i).state = .finWait)
include hstate

theorem tcpSegment_sure (hrst : seg.isRst = false)
    (h : seg.payload ≠ [] ∨ (x.state.conns i).FinNext seg) :
    Sure (Acknowledging i x.trace) (tcpSegment i srcIp seg) x Q := by
  have hsyn : (x.state.conns i).state ≠ .synRcvd ∧ (x.state.conns i).state ≠ .synSent := by
    obtain hs | hs := hstate <;> rw [hs] <;> decide
  rw [tcpSegment, if_neg (by simp [hrst])]
  simp only [sure_bind, sure_update, sure_conn, setConn_same,
    ackUpdate_state_of_ne _ _ hsyn.1, if_neg hsyn.2]
  refine .inr ?_
  by_cases hdata : seg.payload = []
  · have hfin := h.resolve_left (not_not.2 hdata)
    have hno : ¬((x.state.conns i).ackUpdate seg).InOrder seg := fun hin => hin.1 hdata
    simp only [tcpData, sure_bind, sure_stack, setConn_same, dif_neg hno, if_neg (not_not.2 hdata)]
    refine tcpFinSeg_sure ⟨_, rfl⟩ ?_
    rw [setConn_same]
    exact finNext_ackUpdate.2 hfin
  · exact tcpData_sure ⟨_, rfl⟩ hdata

/-- A step that sends nothing on connection `i`. -/
def SendsNothing (i : Slot) (y z : Point) : Prop :=
  ∃ es, z.trace = es ++ y.trace ∧ ∀ bytes c, .sent i bytes c ∉ es

theorem tcpSegment_silent (hrst : seg.isRst = false) (hdata : seg.payload = [])
    (hfin : ¬(x.state.conns i).FinNext seg) :
    contract.wp (SendsNothing i) (tcpSegment i srcIp seg) x fun _ _ => True := by
  have hsyn : (x.state.conns i).state ≠ .synRcvd ∧ (x.state.conns i).state ≠ .synSent := by
    obtain hs | hs := hstate <;> rw [hs] <;> decide
  have hno : ¬((x.state.conns i).ackUpdate seg).InOrder seg := fun hin => hin.1 hdata
  have hfin' : ¬((x.state.conns i).ackUpdate seg).FinNext seg := finNext_ackUpdate.not.2 hfin
  rw [tcpSegment, if_neg (by simp [hrst])]
  simp only [Contract.wp_bind, wp_update, wp_conn, setConn_same,
    ackUpdate_state_of_ne _ _ hsyn.1, if_neg hsyn.2, tcpData, wp_stack, dif_neg hno,
    if_neg (not_not.2 hdata), Contract.wp_pure, tcpFinSeg, if_neg hfin', tcpClosed]
  refine ⟨⟨[_], rfl, by simp⟩, ?_⟩
  split
  · rw [wp_update]
    exact ⟨⟨[], rfl, by simp⟩, trivial⟩
  · trivial

end

theorem SendsNothing.trans {y z w : Point} (h : SendsNothing i y z) (h' : SendsNothing i z w) :
    SendsNothing i y w := by
  obtain ⟨es, hes, hno⟩ := h
  obtain ⟨es', hes', hno'⟩ := h'
  refine ⟨es' ++ es, by rw [hes', hes, append_assoc], fun bytes c hmem => ?_⟩
  exact (mem_append.1 hmem).elim (hno' bytes c) (hno bytes c)

theorem SendsNothing.not_acknowledging {z : Point} (h : SendsNothing i x z) :
    ¬Acknowledging i x.trace z := by
  rintro ⟨bytes, es', htr, _⟩
  obtain ⟨es, hes, hno⟩ := h
  rw [hes, ← cons_append] at htr
  refine hno bytes (z.state.conns i) ?_
  rw [append_cancel_right htr]
  exact mem_cons_self

variable {data : List UInt8} (hparse : Segment.parse data = some seg)
  (hfind : x.state.tcpFind srcIp seg.sport seg.dport = some i)
  (hstate : (x.state.conns i).state = .established ∨ (x.state.conns i).state = .finWait)
  (hrst : seg.isRst = false)
include hparse hfind hstate hrst

theorem tcpInput_sure (h : seg.payload ≠ [] ∨ (x.state.conns i).FinNext seg) :
    Sure (Acknowledging i x.trace) (tcpInput srcIp data) x Q := by
  simp only [tcpInput, hparse, sure_bind, sure_stack, hfind]
  exact tcpSegment_sure hstate hrst h

/-- A segment without data whose FIN, if any, is not the next thing expected is not answered, up
to any point of its handling. -/
theorem tcpInput_silent (hdata : seg.payload = []) (hfin : ¬(x.state.conns i).FinNext seg)
    {z : Point} {rest : Code Unit} (hz : Reaches body ⟨x, tcpInput srcIp data⟩ ⟨z, rest⟩) :
    ¬Acknowledging i x.trace z := by
  have hwp : contract.wp (SendsNothing i) (tcpInput srcIp data) x fun _ _ => True := by
    simp only [tcpInput, hparse, Contract.wp_bind, wp_stack, hfind]
    exact tcpSegment_silent hstate hrst hdata hfin
  have hchain := (met.reaches hz hwp).1
  refine SendsNothing.not_acknowledging ?_
  refine chain_keeps (I := SendsNothing i x) (fun _ _ hyz hy => hy.trans hyz) hchain ?_
  exact ⟨[], rfl, by simp⟩

/-- **Which segments are acknowledged.** Handling a segment of a connection in ESTABLISHED or
FIN_WAIT, whatever the environment does meanwhile, sends a segment with ACK and the current
`rcv_nxt` exactly if it carries data or its FIN is the next thing expected. -/
theorem segment_reacked_iff :
    (∀ (M : Type) (reply : M → (q : Query) → q.Answer) (ms : List M), ∃ k,
      Acknowledging i x.trace (exec body reply k ms ⟨x, tcpInput srcIp data⟩).point) ↔
    seg.payload ≠ [] ∨ (x.state.conns i).FinNext seg := by
  constructor
  · intro h
    by_contra hnot
    rw [not_or, not_not] at hnot
    obtain ⟨k, hk⟩ := h Move Move.reply []
    exact tcpInput_silent hparse hfind hstate hrst hnot.1 hnot.2 (reaches_exec k _ _) hk
  · exact fun h M reply ms => (tcpInput_sure hparse hfind hstate hrst h).exec reply ms

end Reack

/-- What the segment of `peerSends` carries in its IP packet. -/
def peerSegment (seq ack : UInt32) (flags : UInt8) (payload : List UInt8) : List UInt8 :=
  (TcpHdr.mk 80 hostPort seq ack 0x50 flags 1000 0 0).bytes ++ payload

/-- One byte of data for the connection of `connected`, in an environment that answers nothing. -/
theorem segment_reacked_data :
    ((play hostMac 1000 connected).state.conns 0).state = .established ∧
    ∃ k, Acknowledging 0 (play hostMac 1000 connected).trace (exec body Move.reply k []
      ⟨play hostMac 1000 connected, tcpInput peerIp (peerSegment 5001 1 tcpAckFlag [7])⟩).point := by
  have hparse : Segment.parse (peerSegment 5001 1 tcpAckFlag [7]) =
      some ⟨80, hostPort, 5001, 1, tcpAckFlag, [7]⟩ := by
    decide +kernel
  have hfind : (play hostMac 1000 connected).state.tcpFind peerIp 80 hostPort = some 0 := by
    decide +kernel
  have hstate : ((play hostMac 1000 connected).state.conns 0).state = .established := by
    decide +kernel
  have h := (segment_reacked_iff hparse hfind (.inl hstate) (by decide)).2 (.inl (by decide))
  exact ⟨hstate, h Move Move.reply []⟩

/-- The acknowledgement was lost and the FIN comes again: it is not answered. -/
theorem fin_not_reacked : ∃ x seg, Visited x ∧
    Segment.parse (peerSegment 5001 1 (tcpFin ||| tcpAckFlag) []) = some seg ∧
    x.state.tcpFind peerIp seg.sport seg.dport = some 0 ∧
    (x.state.conns 0).state = .established ∧ seg.isRst = false ∧ seg.isFin = true ∧
    ∀ (M : Type) (reply : M → (q : Query) → q.Answer) (ms : List M) (k : Nat),
      ¬Acknowledging 0 x.trace (exec body reply k ms
        ⟨x, tcpInput peerIp (peerSegment 5001 1 (tcpFin ||| tcpAckFlag) [])⟩).point := by
  have hparse : Segment.parse (peerSegment 5001 1 (tcpFin ||| tcpAckFlag) []) =
      some ⟨80, hostPort, 5001, 1, tcpFin ||| tcpAckFlag, []⟩ := by
    decide +kernel
  have hfind : (play hostMac 1000 peerFinished).state.tcpFind peerIp 80 hostPort = some 0 := by
    decide +kernel
  have hstate : ((play hostMac 1000 peerFinished).state.conns 0).state = .established := by
    decide +kernel
  have hfin : ¬((play hostMac 1000 peerFinished).state.conns 0).FinNext
      ⟨80, hostPort, 5001, 1, tcpFin ||| tcpAckFlag, []⟩ := by
    decide +kernel
  refine ⟨play hostMac 1000 peerFinished, _, visited_play _ _ _, hparse, hfind, hstate, by decide,
    by decide, ?_⟩
  intro M reply ms k
  exact tcpInput_silent hparse hfind (.inl hstate) (by decide) rfl hfin (reaches_exec k ms _)

end JuampiOs.Net
