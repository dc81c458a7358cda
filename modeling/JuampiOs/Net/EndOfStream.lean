import JuampiOs.Net.Receive

/-!
# The end of the stream

`net_tcp_recv` returns 0 when its ring is empty and the peer has sent its FIN or the connection
is done. DONE stands for several ends: after the FINs of both sides, but also after a RST and
after the last retransmission. `recv_zero_at_end` says when 0 does mean the end of the stream.
-/

namespace JuampiOs.Net

open Lib Lib.Lang List Event TcpConn

/-- The bytes that went into the receive ring since the record was filled in. -/
def stored (i : Slot) : List Event → List UInt8
  | [] => []
  | .stored j seg _ :: tr => if j = i then stored i tr ++ seg.payload else stored i tr
  | .opened j _ _ :: tr => if j = i then [] else stored i tr
  | _ :: tr => stored i tr

/-- The connection is reset or given up only once the peer's FIN was taken, and nothing is
delivered to it while it listens. -/
def Event.EndsCleanly (i : Slot) : Event → Prop
  | .delivered j _ seg c =>
    j = i → c.state ≠ .listen ∧ (seg.isRst = true → c.peerFin = true)
  | .gaveUp j c => j = i → c.peerFin = true
  | _ => True

instance (i : Slot) : DecidablePred (Event.EndsCleanly i)
  | .delivered .. | .gaveUp .. => (inferInstance : Decidable (_ → _))
  | .called .. | .returned .. | .opened .. | .passive .. | .emit .. | .emitted .. | .sent ..
  | .stored .. | .finSeen .. | .received .. | .released .. => isTrue trivial

/-- What was returned and what the ring holds is what was stored, and a connection that is done
has taken the peer's FIN. -/
structure Ended (i : Slot) (c : TcpConn) (tr : List Event) : Prop where
  stored : received i tr ++ c.rx.contents = stored i tr
  done : (∀ e ∈ since i tr, e.EndsCleanly i) → c.state = .done → c.peerFin = true

section Ended

variable {i : Slot} {n : Stack} {es tr : List Event} {c c' : TcpConn}

/-- An event that stores nothing on connection `i` and does not open it. -/
def Event.storesNothing (i : Slot) : Event → Bool
  | .stored j _ _ => j ≠ i
  | .opened j _ _ => j ≠ i
  | _ => true

theorem stored_append (hes : ∀ e ∈ es, e.storesNothing i = true) :
    Net.stored i (es ++ tr) = Net.stored i tr := by
  induction es with
  | nil => rfl
  | cons e es ih =>
    have he := hes e (by simp)
    have ih := ih fun a ha => hes a (by simp [ha])
    cases e <;> simp_all [storesNothing, Net.stored]

theorem clean_of_append (ho : ∀ e ∈ es, e.opens i = false)
    (h : ∀ e ∈ since i (es ++ tr), e.EndsCleanly i) : ∀ e ∈ since i tr, e.EndsCleanly i :=
  fun e he => h e (mem_since_append ho he)

theorem Ended.update (h : Ended i c tr)
    (hrx : c'.rx = c.rx)
    (hdone : (∀ e ∈ since i (es ++ tr), e.EndsCleanly i) → c'.state = .done →
      (c.state = .done → c.peerFin = true) → c'.peerFin = true)
    (hes : ∀ e ∈ es, e.opens i = false ∧ e.isSilent i = true ∧ e.storesNothing i = true := by
      simp [opens, isSilent, storesNothing]) : Ended i c' (es ++ tr) where
  stored := by
    rw [received_append fun e he => (hes e he).2.1, stored_append fun e he => (hes e he).2.2, hrx]
    exact h.stored
  done hok hd := hdone hok hd (h.done (clean_of_append (fun e he => (hes e he).1) hok))

theorem Ended.served (hs : Served n tr i es c) (h : Ended i (n.conns i) tr) :
    Ended i c (es ++ tr) := by
  cases hs with
  | accept srcIp seg d hmem hrst hd hin =>
    refine ⟨?_, fun hok hdone => h.done (clean_of_append (by simp [opens]) hok) hdone⟩
    show received i tr ++ ((n.conns i).rx.push seg.payload hin.2.2).contents =
      Net.stored i (.stored i seg (n.conns i) :: tr)
    rw [Ring.contents_push, ← append_assoc, h.stored, Net.stored, if_pos rfl]
  | reset srcIp seg hfind hrst =>
    refine h.update rfl ?_
    intro hok _ _
    exact (hok (.delivered i srcIp seg (n.conns i)) (by simp [opens]) rfl).2 hrst
  | giveUp hretx =>
    refine h.update rfl ?_
    intro hok _ _
    exact hok (.gaveUp i (n.conns i)) (by simp [opens]) rfl
  | finish seg d hmem hd hstate hpeer => exact h.update rfl fun _ _ _ => hpeer
  | closed hstate hretx hpeer => exact h.update rfl fun _ _ _ => hpeer
  | ack srcIp seg hfind hrst =>
    refine h.update (by simp) ?_
    intro _ hd hold
    rw [ackUpdate_peerFin]
    exact hold (ackUpdate_state_eq _ _ (by decide) hd)
  | answer =>
    refine h.update (by simp) ?_
    intro _ hd hold
    rw [record_state] at hd
    rw [record_peerFin]
    exact hold hd
  | acceptFin => exact h.update rfl fun _ _ _ => rfl
  | passive | synAck => exact h.update rfl fun _ hd => by cases hd
  | sent | emitted | resend => exact h.update rfl fun _ hd hold => hold hd

theorem Ended.acted (ha : Acted n tr i es c) (h : Ended i (n.conns i) tr) :
    Ended i c (es ++ tr) := by
  cases ha with
  | connect | listen =>
    exact ⟨by simp [received, Net.stored, TcpConn.connecting, TcpConn.listening, TcpConn.zero],
      fun _ hd => by cases hd⟩
  | drain k hk =>
    refine ⟨?_, fun hok hd => h.done (clean_of_append (by simp [opens]) hok) hd⟩
    show received i (.received i ((n.conns i).rx.peek k) :: tr) ++ ((n.conns i).rx.pop k).contents =
      Net.stored i tr
    rw [received, if_pos rfl, Ring.peek_eq_take _ hk, Ring.contents_pop, append_assoc,
      take_append_drop, h.stored]
  | emit =>
    refine h.update (by simp) ?_
    intro _ hd hold
    rw [record_state] at hd
    rw [record_peerFin]
    exact hold hd
  | waitFin => exact h.update rfl fun _ hd => by cases hd
  | emitted | release => exact h.update rfl fun _ hd hold => hold hd

theorem ended_tracked (i : Slot) : Tracked i (Ended i) where
  zero := ⟨rfl, nofun⟩
  skips c e tr he h := by
    refine h.update rfl (fun _ hd hold => hold hd) (forall_mem_singleton.2 ?_)
    refine ⟨(of_slot_ne he).1, isSilent_of_slot_ne he, ?_⟩
    cases e <;> simp_all [slot, storesNothing]
  served _ _ _ _ hs h := h.served hs
  acted _ _ _ _ ha h := h.acted ha

end Ended

/-- **No byte is lost, repeated or reordered** behind the receive ring, whoever sends what: what
`net_tcp_recv` has returned and what the ring holds is what was stored. -/
theorem run_bytes_conserved {x : Point} (hrun : Visited x) (i : Slot) :
    received i x.trace ++ (x.state.conns i).rx.contents = stored i x.trace :=
  (hrun.stepped.track (ended_tracked i)).stored

/-- Two bytes arrive and are read. -/
theorem run_bytes_conserved_data :
    received 0 (play hostMac 1000 dataReceived).trace ++
      ((play hostMac 1000 dataReceived).state.conns 0).rx.contents =
      stored 0 (play hostMac 1000 dataReceived).trace :=
  run_bytes_conserved (visited_play ..) 0

theorem noLateData_of_clean {i : Slot} {tr : List Event}
    (h : ∀ e ∈ since i tr, e.EndsCleanly i) : NoLateData i tr := by
  rintro ⟨e, he, hd⟩
  have hclean := h e he
  cases e <;> simp_all [dropsUnopened, EndsCleanly]

/-- **The end of the stream.** `net_tcp_recv` with room in the buffer returns 0, on a connection
that was reset or given up at most after the peer's FIN, only if that FIN was taken in order and
all that was stored has been returned; and from a peer that sends `S`, that is all of `S`. -/
theorem recv_zero_at_end {n : Stack} {tr : List Event} {id : Int} {cap timeoutMs : UInt32}
    {r : Reply} (hrun : Visited ⟨n, .returned (.tcpRecv id cap timeoutMs) r :: tr⟩)
    (hret : r.ret = 0) (hcap : cap ≠ 0) :
    ∃ i, slotOf id = some i ∧ ((∀ e ∈ since i tr, e.EndsCleanly i) →
      FinReceived i tr ∧ received i tr = stored i tr ∧
      ∀ S, FromPeer S i tr → received i tr = S.bytes) := by
  obtain ⟨n', hstep, hreturns⟩ := hrun.stepped.returned rfl
  obtain hzero | ⟨i, hid, hlen, hend⟩ := hreturns hret
  · exact absurd (UInt32.toNat.inj hzero) hcap
  refine ⟨i, hid, fun hclean => ?_⟩
  have hended := hstep.track (ended_tracked i)
  have hempty : (n'.conns i).rx.contents = [] := by
    rw [← length_eq_zero_iff, Ring.length_contents]
    exact hlen
  have hpeer : (n'.conns i).peerFin = true := hend.elim (fun h => h) fun hd => hended.done hclean hd
  refine ⟨(hstep.track (closing_tracked i)).received hpeer, ?_, fun S hS => ?_⟩
  · have := hended.stored
    rwa [hempty, append_nil] at this
  · obtain hu | hs := (hstep.track (follows_tracked S i)).2 hS (noLateData_of_clean hclean)
    · rw [hu.peerFin] at hpeer
      exact absurd hpeer (by decide)
    · obtain ⟨k, _, _, hbytes, hfin⟩ := hs.taken
      rwa [hempty, append_nil, hfin hpeer, take_length] at hbytes

/-- The host asks for data once the peer has finished. -/
def recvFinished : List Move := peerFinished ++ [.call (.tcpRecv 0 10 1000), .clock 10]

/-- The call returns 0. -/
theorem recv_zero_at_end_finished : ∃ n tr r,
    Visited ⟨n, .returned (.tcpRecv 0 10 1000) r :: tr⟩ ∧ r.ret = 0 ∧ FinReceived 0 tr ∧
    received 0 tr = stored 0 tr := by
  have hret : lastReturn (play hostMac 1000 recvFinished).trace =
      some (.tcpRecv 0 10 1000, 0) := by
    decide +kernel
  have hclean : ∀ e ∈ since 0 (play hostMac 1000 recvFinished).trace.tail,
      e.EndsCleanly 0 := by
    decide +kernel
  obtain ⟨n, r, hrun, hr⟩ := visited_lastReturn hret
  obtain ⟨i, hid, hend⟩ := recv_zero_at_end hrun hr (by decide)
  obtain rfl : i = 0 := by simpa [slotOf] using hid.symm
  exact ⟨n, _, r, hrun, hr, (hend hclean).1, (hend hclean).2.1⟩

def Event.isFinSeen : Event → Bool
  | .finSeen _ _ _ => true
  | _ => false

/-- The peer resets the connection while the host waits for data. -/
def recvReset : List Move :=
  connected ++ [.call (.tcpRecv 0 10 1000), .clock 10, peerSends 5001 0 tcpRst [], .idle, .clock 11,
    .clock 11]

/-- The host is told that the stream has ended, and the peer has sent no FIN. -/
theorem recv_zero_after_reset : ∃ n tr r,
    Visited ⟨n, .returned (.tcpRecv 0 10 1000) r :: tr⟩ ∧ r.ret = 0 ∧ slotOf 0 = some 0 ∧
    ¬FinReceived 0 tr := by
  have hret : lastReturn (play hostMac 1000 recvReset).trace = some (.tcpRecv 0 10 1000, 0) := by
    decide +kernel
  have hnone : (play hostMac 1000 recvReset).trace.tail.all (fun e => !e.isFinSeen) = true := by
    decide +kernel
  obtain ⟨n, r, hrun, hr⟩ := visited_lastReturn hret
  refine ⟨n, _, r, hrun, hr, by decide, ?_⟩
  rintro ⟨seg, c, hmem, _⟩
  have := all_eq_true.1 hnone _ (mem_of_mem_since hmem)
  exact absurd this (by simp [isFinSeen])

end JuampiOs.Net
