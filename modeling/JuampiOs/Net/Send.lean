import JuampiOs.Net.Runs

/-!
# Sending

`net_tcp_send` counts a chunk once the outstanding segment is gone, and `tcp_emit` records its
segment over whatever was outstanding before. What the two come to over a whole run:
`send_acked` says which bytes a successful call may count, `run_stop_and_wait` when no segment
is recorded over another.
-/

namespace JuampiOs.Net

open Lib Lib.Lang List Event

/-! ## What `net_tcp_send` counts -/

/-- **A call of `net_tcp_send` that returns `n > 0` has had its first `n` bytes acknowledged**,
provided that the connection was neither reset nor given up while `tcp_emit` was transmitting
for this call. -/
theorem send_acked {n : Stack} {es tr : List Event} {id : Int} {data : List UInt8} {r : Reply}
    {conns : Slot → TcpConn}
    (hrun : Visited ⟨n, .returned (.tcpSend id data) r ::
      (es ++ .called (.tcpSend id data) conns :: tr)⟩)
    (hcall : ∀ e ∈ es, e.isCalled = false) (hret : 0 < r.ret) :
    ∃ i, slotOf id = some i ∧
      (disturbed i es = false → ∀ j : Nat, (j : Int) < r.ret →
        Acked i (conns i).sndNxt data j es) := by
  obtain ⟨n', _, hreturns⟩ := hrun.stepped.returned rfl
  obtain ⟨i, hid, hacked⟩ := hreturns hret
  exact ⟨i, hid, hacked es conns tr rfl hcall⟩

/-- A segment that acknowledges something on connection `i`. -/
def Event.acknowledges (i : Slot) : Event → Bool
  | .delivered j _ seg _ => j = i && !seg.isRst && seg.isAck
  | _ => false

theorem Acked.acknowledges {i : Slot} {base : UInt32} {data : List UInt8} {j : Nat}
    {es : List Event} (h : Acked i base data j es) : es.any (Event.acknowledges i) = true := by
  obtain ⟨off, chunk, _, _, _, c, myIp, es1, es2, srcIp, seg, c', _, rfl, hmem, hrst, hack, _⟩ := h
  refine any_eq_true.2 ⟨_, mem_append_left _ hmem, ?_⟩
  simp [Event.acknowledges, hrst, hack]

/-- The peer resets the connection while the host is looking for its new gateway. -/
def resetWhileSending : List Move :=
  connected ++ [configure 0x0A000203, .call (.tcpSend 0 [1, 2, 3]), .clock 10, .sent true,
    .clock 10, .clock 11, peerSends 5001 0 tcpRst [], .idle, .clock 11, .clock 1011, .clock 1011]

/-- All three bytes are counted, and the peer has acknowledged none. -/
theorem send_counts_unacknowledged : ∃ n es conns tr r,
    Visited ⟨n, .returned (.tcpSend 0 [1, 2, 3]) r ::
      (es ++ .called (.tcpSend 0 [1, 2, 3]) conns :: tr)⟩ ∧
    (∀ e ∈ es, e.isCalled = false) ∧ r.ret = 3 ∧ slotOf 0 = some 0 ∧
    ∀ j, ¬Acked 0 (conns 0).sndNxt [1, 2, 3] j es := by
  have hret : lastReturn (play hostMac 1000 resetWhileSending).trace =
      some (.tcpSend 0 [1, 2, 3], 3) := by
    decide +kernel
  have hcall : (lastCall (play hostMac 1000 resetWhileSending).trace.tail).map Prod.fst =
      some (.tcpSend 0 [1, 2, 3]) := by
    decide +kernel
  have hnone : (sinceCall (play hostMac 1000 resetWhileSending).trace.tail).any
      (acknowledges 0) = false := by
    decide +kernel
  obtain ⟨n, r, conns, tr, hrun, hr⟩ := visited_lastCall hret hcall
  generalize hes : sinceCall _ = es at hrun hnone
  refine ⟨n, es, conns, tr, r, hrun, ?_, hr, by decide, ?_⟩
  · subst hes
    exact fun e he => isCalled_of_mem_sinceCall he
  · intro j hacked
    rw [hacked.acknowledges] at hnone
    exact absurd hnone (by decide)

/-- The peer acknowledges the data. -/
def sendAnswered : List Move :=
  connected ++ [.call (.tcpSend 0 [1, 2, 3]), .clock 10, .sent true, .clock 11,
    peerSends 5001 4 tcpAckFlag [], .idle, .clock 12, .clock 12]

/-- All three bytes are counted, and acknowledged. -/
theorem send_acked_answered : ∃ n es conns tr r,
    Visited ⟨n, .returned (.tcpSend 0 [1, 2, 3]) r ::
      (es ++ .called (.tcpSend 0 [1, 2, 3]) conns :: tr)⟩ ∧
    r.ret = 3 ∧ ∀ j : Nat, j < 3 → Acked 0 (conns 0).sndNxt [1, 2, 3] j es := by
  have hret : lastReturn (play hostMac 1000 sendAnswered).trace =
      some (.tcpSend 0 [1, 2, 3], 3) := by
    decide +kernel
  have hcall : (lastCall (play hostMac 1000 sendAnswered).trace.tail).map Prod.fst =
      some (.tcpSend 0 [1, 2, 3]) := by
    decide +kernel
  have hcalm : disturbed 0 (sinceCall (play hostMac 1000 sendAnswered).trace.tail) = false := by
    decide +kernel
  obtain ⟨n, r, conns, tr, hrun, hr⟩ := visited_lastCall hret hcall
  obtain ⟨i, hid, hacked⟩ := send_acked hrun (fun e he => isCalled_of_mem_sinceCall he)
    (by rw [hr]; decide)
  obtain rfl : i = 0 := by simpa [slotOf] using hid.symm
  refine ⟨n, _, conns, tr, r, hrun, hr, fun j hj => hacked hcalm j ?_⟩
  rw [hr]
  omega

/-! ## Stop and wait -/

/-- A call that is about to send finds nothing outstanding on its connection. -/
def Event.Idle : Event → Prop
  | .called (.tcpSend id data) conns => ∀ i, slotOf id = some i → (conns i).inUse = true →
      (conns i).state = .established → data ≠ [] → (conns i).retxLen = 0
  | .called (.tcpClose id) conns => ∀ i, slotOf id = some i → (conns i).inUse = true →
      (conns i).state = .established → (conns i).retxLen = 0
  | _ => True

instance : DecidablePred Event.Idle := fun e => by
  unfold Event.Idle
  split <;> infer_instance

def CallsIdle (tr : List Event) : Prop := ∀ e ∈ tr, e.Idle

section StopAndWait

variable {i : Slot} {n : Stack} {es tr : List Event} {c : TcpConn}

theorem CallsIdle.of_append (es : List Event) (h : CallsIdle (es ++ tr)) : CallsIdle tr :=
  fun e hmem => h e (mem_append_right _ hmem)

theorem Emits.idle {flags : UInt8} {len : Nat} (h : Emits n tr i flags len)
    (hfresh : Fresh i (n.conns i) tr) (hcalls : CallsIdle tr) : (n.conns i).retxLen = 0 := by
  cases h with
  | syn conns hhead hstate => exact hfresh.opened _ _ hhead
  | first id data len hid hhead huse hstate hlen hdata =>
    refine hcalls _ (mem_of_head? hhead) i hid huse hstate ?_
    rintro rfl
    exact hlen (Nat.le_zero.1 hdata)
  | next len hretx => exact hretx
  | fin id hid hhead huse hstate => exact hcalls _ (mem_of_head? hhead) i hid huse hstate

/-- Every segment so far was sent with nothing outstanding. -/
def EmitsIdle (i : Slot) (tr : List Event) : Prop :=
  ∀ flags len c, .emit i flags len c ∈ tr → c.retxLen = 0

theorem EmitsIdle.append (h : EmitsIdle i tr)
    (hes : ∀ flags len c, .emit i flags len c ∈ es → c.retxLen = 0) : EmitsIdle i (es ++ tr) :=
  fun flags len c hmem => (mem_append.1 hmem).elim (hes flags len c) (h flags len c)

theorem emitsIdle_tracked (i : Slot) :
    Tracked i fun c tr => Fresh i c tr ∧ (CallsIdle tr → EmitsIdle i tr) where
  zero := ⟨(fresh_tracked i).zero, fun _ => by simp [EmitsIdle]⟩
  skips c e tr he h := by
    refine ⟨(fresh_tracked i).skips c e tr he h.1, fun hcalls => ?_⟩
    show EmitsIdle i ([e] ++ tr)
    refine (h.2 (CallsIdle.of_append [e] hcalls)).append ?_
    intro flags len c' hmem
    rw [← mem_singleton.1 hmem] at he
    exact absurd rfl he
  served n tr es c hs h := by
    refine ⟨(fresh_tracked i).served n tr es c hs h.1, fun hcalls =>
      (h.2 (hcalls.of_append es)).append ?_⟩
    intro flags len c' hmem
    obtain ⟨srcIp, seg, ns, rfl, _⟩ | ⟨srcIp, seg, bytes, now, hhead, _, _, rfl, _⟩ |
      ⟨_, _, _, hes, _⟩ := hs.outstanding
    · simp at hmem
    · -- the SYN-ACK of a record that was just opened
      simp only [mem_cons, reduceCtorEq, emit.injEq, not_mem_nil, or_false, false_or] at hmem
      rw [hmem.2.2.2]
      exact h.1.passive srcIp seg hhead
    · exact absurd (hes _ hmem).2 (by simp [emits])
  acted n tr es c ha h := by
    refine ⟨(fresh_tracked i).acted n tr es c ha h.1, fun hcalls =>
      (h.2 (hcalls.of_append es)).append ?_⟩
    intro flags len c' hmem
    cases ha with
    | emit flags' len' bytes now hemits hbytes =>
      simp only [mem_cons, reduceCtorEq, emit.injEq, not_mem_nil, or_false, false_or] at hmem
      rw [hmem.2.2.2]
      exact hemits.idle h.1 (hcalls.of_append _)
    | _ => simp at hmem

/-- What became of the segment that was outstanding on connection `i` at `x`. -/
inductive Kept (i : Slot) (x y : Point) : Prop where
  | same (huse : (y.state.conns i).inUse = true)
      (hretx : (y.state.conns i).retx = (x.state.conns i).retx)
      (hlen : (y.state.conns i).retxLen = (x.state.conns i).retxLen)
      (hseq : (y.state.conns i).retxSeq = (x.state.conns i).retxSeq)
  | acked (srcIp : UInt32) (seg : Segment)
      (htr : y.trace = .delivered i srcIp seg (x.state.conns i) :: x.trace)
      (hrst : seg.isRst = false) (hrel : (x.state.conns i).releases seg = true)
  | dropped (e : Event) (htr : y.trace = e :: x.trace) (hd : e.drops i = true)
  | released (htr : y.trace = .released i (x.state.conns i) :: x.trace)

section

variable {x y : Point} (hfresh : Fresh i (x.state.conns i) x.trace)
  (huse : (x.state.conns i).inUse = true) (hretx : (x.state.conns i).retxLen ≠ 0)
include hfresh huse hretx

theorem Served.kept (hs : Served x.state x.trace i es (y.state.conns i))
    (hy : y.trace = es ++ x.trace) : Kept i x y := by
  obtain ⟨srcIp, seg, ns, rfl, hlisten, _⟩ | ⟨srcIp, seg, bytes, now, hhead, _⟩ |
    ⟨_, hseq, hbytes, _, hfate⟩ := hs.outstanding
  · exact absurd (hfresh.listen (Stack.listener_spec hlisten).2.1).1 hretx
  · exact absurd (hfresh.passive srcIp seg hhead) hretx
  · obtain hlen | ⟨srcIp, seg, rfl, hrst, hrel, _⟩ | ⟨e, rfl, hd, _⟩ := hfate
    · exact .same (hs.inUse.trans huse) hbytes hlen hseq
    · exact .acked srcIp seg hy hrst hrel
    · exact .dropped e hy hd

theorem Acted.kept (ha : Acted x.state x.trace i es (y.state.conns i))
    (hy : y.trace = es ++ x.trace) (hcalls : CallsIdle x.trace) : Kept i x y := by
  generalize hc : y.state.conns i = c at ha
  cases ha with
  | connect _ _ _ hfree | listen _ hfree => exact absurd huse (by simp [hfree])
  | emit flags len bytes now hemits hbytes => exact absurd (hemits.idle hfresh hcalls) hretx
  | release => exact .released hy
  | emitted | waitFin | drain => exact .same (hc ▸ huse) (hc ▸ rfl) (hc ▸ rfl) (hc ▸ rfl)

theorem Api.kept (h : Api x y) (hcalls : CallsIdle x.trace) : Kept i x y := by
  obtain heq | ⟨es, hy, hs | ha⟩ := h.at_slot i
  · exact .same (heq ▸ huse) (heq ▸ rfl) (heq ▸ rfl) (heq ▸ rfl)
  · exact hs.kept hfresh huse hretx hy
  · exact ha.kept hfresh huse hretx hy hcalls

end

end StopAndWait

/-- **The stop-and-wait discipline.** In a run in which every `net_tcp_send` and `net_tcp_close`
that is about to send finds nothing outstanding, no segment that occupies sequence numbers is
sent while another is outstanding; and an outstanding segment stays the one to retransmit until
it is acknowledged, the connection is reset or given up, or its record is released. -/
theorem run_stop_and_wait {x : Point} (hrun : Visited x) (hcalls : CallsIdle x.trace) (i : Slot) :
    (∀ flags len c, .emit i flags len c ∈ x.trace → TcpConn.consumed flags len ≠ 0 →
      c.retxLen = 0) ∧
    ∀ y, Moves x y → (x.state.conns i).inUse = true → (x.state.conns i).retxLen ≠ 0 →
      Kept i x y := by
  obtain ⟨hfresh, hidle⟩ := hrun.stepped.track (emitsIdle_tracked i)
  refine ⟨fun flags len c hmem _ => hidle hcalls flags len c hmem, ?_⟩
  intro y hxy huse hretx
  obtain rfl | hxy := moves_step hxy
  · exact .same huse rfl rfl rfl
  · exact hxy.kept hfresh huse hretx hcalls

/-- The run of `sendAnswered` is one of these. -/
theorem run_stop_and_wait_sending :
    CallsIdle (play hostMac 1000 sendAnswered).trace ∧
    ∀ flags len c, .emit 0 flags len c ∈ (play hostMac 1000 sendAnswered).trace →
      TcpConn.consumed flags len ≠ 0 → c.retxLen = 0 := by
  have hcalls : CallsIdle (play hostMac 1000 sendAnswered).trace := by
    unfold CallsIdle
    decide +kernel
  exact ⟨hcalls, (run_stop_and_wait (visited_play hostMac 1000 sendAnswered) hcalls 0).1⟩

/-- The peer does not answer, and the host sends again after the deadline. -/
def sendTwice : List Move :=
  connected ++ [.call (.tcpSend 0 [1]), .clock 10, .sent true, .clock 10, .idle, .clock 20,
    .clock 3210, .call (.tcpSend 0 [2]), .clock 3220]

/-- A segment that occupies sequence numbers, sent over an outstanding one. -/
def Event.overwrites (i : Slot) : Event → Bool
  | .emit j flags len c => j = i && TcpConn.consumed flags len != 0 && c.retxLen != 0
  | _ => false

/-- The second segment is recorded over the first. -/
theorem sends_over_outstanding : ∃ x flags len c, Visited x ∧ .emit 0 flags len c ∈ x.trace ∧
    TcpConn.consumed flags len ≠ 0 ∧ c.retxLen ≠ 0 := by
  have hany : (play hostMac 1000 sendTwice).trace.any (overwrites 0) = true := by
    decide +kernel
  obtain ⟨e, hmem, he⟩ := any_eq_true.1 hany
  cases e with
  | emit j flags len c =>
    simp only [overwrites, Bool.and_eq_true, decide_eq_true_eq, bne_iff_ne] at he
    obtain ⟨⟨rfl, hcons⟩, hretx⟩ := he
    exact ⟨_, flags, len, c, visited_play hostMac 1000 sendTwice, hmem, hcons, hretx⟩
  | _ => simp [overwrites] at he

end JuampiOs.Net
