import JuampiOs.Net.Runs

/-!
# Which connection a segment belongs to

`tcp_find` takes the first record in use with the peer and the port of a segment. A passive open
only happens when there is none, but `net_tcp_connect` takes whatever port the ephemeral counter
is at: no two connections share a peer and a port (`Distinct`) as long as no active open is
given a port that its peer is already using.
-/

namespace JuampiOs.Net

open Lib Lib.Lang List TcpConn Stack

namespace TcpConn

/-- In use and not listening. -/
def Active (c : TcpConn) : Prop := c.inUse = true ∧ c.state ≠ .listen

/-- The two records have the same peer address, peer port and local port. -/
def SameTuple (c d : TcpConn) : Prop :=
  c.peerIp = d.peerIp ∧ c.peerPort = d.peerPort ∧ c.localPort = d.localPort

instance (c : TcpConn) : Decidable c.Active := by unfold Active; infer_instance
instance (c d : TcpConn) : Decidable (c.SameTuple d) := by unfold SameTuple; infer_instance

theorem SameTuple.symm {c d : TcpConn} (h : c.SameTuple d) : d.SameTuple c :=
  ⟨h.1.symm, h.2.1.symm, h.2.2.symm⟩

theorem SameTuple.trans {c d e : TcpConn} (h : c.SameTuple d) (h' : d.SameTuple e) :
    c.SameTuple e :=
  ⟨h.1.trans h'.1, h.2.1.trans h'.2.1, h.2.2.trans h'.2.2⟩

end TcpConn

/-- No two active connections share peer and port. -/
def Distinct (conns : Slot → TcpConn) : Prop :=
  ∀ i j, i ≠ j → (conns i).Active → (conns j).Active → ¬(conns i).SameTuple (conns j)

/-- An active open gets a tuple that no active connection has, and no RST reaches a connection
that listens (its source would have address and port 0). -/
def Event.KeepsDistinct : Event → Prop
  | .opened _ c conns => c.state = .synSent → ∀ j, (conns j).Active → ¬c.SameTuple (conns j)
  | .delivered _ _ seg c => c.state = .listen → seg.isRst = false
  | _ => True

instance : DecidablePred Event.KeepsDistinct
  | .opened .. | .delivered .. => (inferInstance : Decidable (_ → _))
  | .called .. | .returned .. | .passive .. | .emit .. | .emitted .. | .sent .. | .gaveUp ..
  | .stored .. | .finSeen .. | .received .. | .released .. => isTrue trivial

section Distinct

variable {conns : Slot → TcpConn} {n : Stack} {tr es : List Event} {i : Slot} {c : TcpConn}

/-- Replacing a record by one that shares its tuple with no other active connection. -/
theorem Distinct.set (h : Distinct conns)
    (hc : ∀ j, j ≠ i → c.Active → (conns j).Active → ¬c.SameTuple (conns j)) :
    Distinct (Function.update conns i c) :=
  pairwise_update (R := fun c d : TcpConn => c.Active → d.Active → ¬c.SameTuple d)
    (fun _ _ h hd hc hsame => h hc hd hsame.symm) h hc

/-- Replacing a record by one with the same tuple that is active only if it was. -/
theorem Distinct.update (h : Distinct conns) (hact : c.Active → (conns i).Active)
    (hsame : c.SameTuple (conns i) := by
      first | exact ⟨rfl, rfl, rfl⟩ | exact ⟨by simp, by simp, by simp⟩) :
    Distinct (Function.update conns i c) :=
  h.set fun j hji hc hj hcj => h i j (Ne.symm hji) (hact hc) hj (hsame.symm.trans hcj)

theorem Stack.tcpFind_none {srcIp : UInt32} {sport dport : UInt16}
    (h : n.tcpFind srcIp sport dport = none) (j : Slot) (huse : (n.conns j).inUse = true)
    (hip : (n.conns j).peerIp = srcIp) (hport : (n.conns j).peerPort = sport) :
    (n.conns j).localPort ≠ dport := by
  have := find?_eq_none.1 h j (mem_finRange j)
  simp_all

theorem Served.distinct (hs : Served n tr i es c) (hfresh : Fresh i (n.conns i) tr)
    (hok : ∀ e ∈ es, e.KeepsDistinct) (h : Distinct n.conns) :
    Distinct (Function.update n.conns i c) := by
  cases hs with
  | passive srcIp seg ns hfind hsyn hlisten =>
    refine h.set fun j hji _ hj hsame => ?_
    refine tcpFind_none hfind j hj.1 hsame.1.symm hsame.2.1.symm ?_
    exact hsame.2.2.symm.trans (listener_spec hlisten).2.2
  | reset srcIp seg hfind hrst =>
    refine h.update fun hc => ⟨hc.1, fun hl => ?_⟩
    have := hok (.delivered i srcIp seg (n.conns i)) (by simp) hl
    rw [hrst] at this
    exact absurd this (by decide)
  | giveUp hretx => exact h.update fun hc => ⟨hc.1, fun hl => hretx (hfresh.listen hl).1⟩
  | ack srcIp seg hfind hrst =>
    refine h.update fun hc => ⟨by simpa using hc.1, fun hl => hc.2 ?_⟩
    rw [ackUpdate_state_of_ne _ _ (by rw [hl]; decide), hl]
  | answer => exact h.update fun hc => by simpa [Active] using hc
  | synAck srcIp seg c tr' htr hcu hrst hstate =>
    exact h.update fun hc => ⟨hc.1, by rw [hstate]; decide⟩
  | finish | closed => exact h.update fun hc => ⟨hc.1, by simp [*]⟩
  | _ => exact h.update id

theorem Acted.distinct (ha : Acted n tr i es c) (hok : ∀ e ∈ es, e.KeepsDistinct)
    (h : Distinct n.conns) : Distinct (Function.update n.conns i c) := by
  cases ha with
  | connect dstIp port iss hfree =>
    refine h.set fun j _ _ hj => ?_
    exact hok (.opened i (.connecting dstIp port n.ephemeralNext iss) n.conns) (by simp) rfl j hj
  | listen port hfree => exact h.set fun j _ hc => absurd rfl hc.2
  | emit flags len bytes now hemits hbytes => exact h.update fun hc => by simpa [Active] using hc
  | waitFin d hfly huse hdrop => exact h.update fun hc => ⟨hc.1, hfly.listen⟩
  | release => exact h.update fun hc => absurd hc.1 (by simp [TcpConn.release])
  | emitted | drain => exact h.update id

theorem Api.distinct {x y : Point} (hxy : Api x y)
    (hfresh : ∀ i, Fresh i (x.state.conns i) x.trace) (hok : ∀ e ∈ y.trace, e.KeepsDistinct)
    (h : Distinct x.state.conns) : Distinct y.state.conns := by
  cases hxy with
  | called | returned => exact h
  | work hxy =>
    cases hxy with
    | pump hxy =>
      cases hxy with
      | quiet n n' tr hconns _ => exact hconns.symm ▸ h
      | serve n tr i es c hs =>
        exact hs.distinct (hfresh i) (fun e he => hok e (mem_append_left _ he)) h
    | udp n n' tr op _ _ hconns => exact hconns.symm ▸ h
    | act n n' tr i es c hconns _ ha =>
      show Distinct (Function.update n'.conns i c)
      rw [hconns]
      exact ha.distinct (fun e he => hok e (mem_append_left _ he)) h

end Distinct

theorem Api.trace {x y : Point} (h : Api x y) : ∃ es, y.trace = es ++ x.trace := by
  cases h with
  | called n tr a => exact ⟨[.called a n.conns], rfl⟩
  | returned n tr a r h => exact ⟨[.returned a r], rfl⟩
  | work h => exact h.trace.imp fun _ h => h.1

theorem Stepped.distinct {x : Point} (h : Stepped x) (hok : ∀ e ∈ x.trace, e.KeepsDistinct) :
    Distinct x.state.conns := by
  refine h.keeps (P := fun x => (∀ e ∈ x.trace, e.KeepsDistinct) → Distinct x.state.conns) ?_ ?_ hok
  · exact fun mac _ i j _ hi => absurd hi.1 (by simp [boot, zero])
  · intro x y hx hxy ih hok
    obtain ⟨es, hes⟩ := hxy.trace
    refine hxy.distinct (fun i => hx.track (fresh_tracked i)) hok (ih fun e he => hok e ?_)
    rw [hes]
    exact mem_append_right _ he

/-- **Connection identity.** In a run in which every active open gets a tuple that no active
connection has, and no RST reaches a connection that listens, no two connections in use that do
not listen share peer address, peer port and local port; and `tcp_find` finds each of them by
its tuple (a peer with address and port 0 apart, which listening connections have). -/
theorem run_connections_distinct {x : Point} (hrun : Visited x)
    (hok : ∀ e ∈ x.trace, e.KeepsDistinct) :
    Distinct x.state.conns ∧
    ∀ i, (x.state.conns i).Active →
      ((x.state.conns i).peerIp ≠ 0 ∨ (x.state.conns i).peerPort ≠ 0) →
      x.state.tcpFind (x.state.conns i).peerIp (x.state.conns i).peerPort
        (x.state.conns i).localPort = some i := by
  have hdist := hrun.stepped.distinct hok
  refine ⟨hdist, fun i hact hpeer => ?_⟩
  cases hfind : x.state.tcpFind (x.state.conns i).peerIp (x.state.conns i).peerPort
      (x.state.conns i).localPort with
  | none => exact absurd rfl (tcpFind_none hfind i hact.1 rfl rfl)
  | some j =>
    obtain ⟨huse, hip, hport, hlocal⟩ := tcpFind_spec hfind
    by_cases hji : j = i
    · rw [hji]
    -- another record with the tuple of `i` would listen, and so have no peer
    exfalso
    have hl : (x.state.conns j).state = .listen := by
      by_contra hl
      exact hdist j i hji ⟨huse, hl⟩ hact ⟨hip, hport, hlocal⟩
    obtain ⟨_, hip0, hport0⟩ := (hrun.stepped.track (fresh_tracked j)).listen hl
    rw [hip0] at hip
    rw [hport0] at hport
    exact hpeer.elim (absurd hip.symm) (absurd hport.symm)

/-- The host opens a second connection to the same port of the peer. -/
def secondConnection : List Move := connected ++ [.call (.tcpConnect peerIp 80 1000), .clock 4]

/-- The two get different local ports. -/
theorem run_connections_distinct_two :
    let n := (play hostMac 1000 secondConnection).state
    (n.conns 0).Active ∧ (n.conns 1).Active ∧ Distinct n.conns ∧
      n.tcpFind (n.conns 1).peerIp (n.conns 1).peerPort (n.conns 1).localPort = some 1 := by
  have hok : ∀ e ∈ (play hostMac 1000 secondConnection).trace, e.KeepsDistinct := by
    decide +kernel
  obtain ⟨hdist, hfind⟩ :=
    run_connections_distinct (visited_play hostMac 1000 secondConnection) hok
  have hact : ((play hostMac 1000 secondConnection).state.conns 1).Active := by decide +kernel
  exact ⟨by decide +kernel, hact, hdist, hfind 1 hact (by decide +kernel)⟩

/-- The host listens on the port the ephemeral counter starts at, the peer connects to it from
its port 80, and the host connects to that port. -/
def crossingOpens : List Move :=
  [configure gatewayIp, .call (.tcpListen hostPort), .call .poll,
    peerSends 5000 0 tcpSyn [], .clock 0, .clock 0, .sent true, .clock 0, .clock 1, arpReply, .idle,
    .clock 1, .sent true, .idle, .clock 1, .call (.tcpConnect peerIp 80 1000), .clock 2]

/-- Two connections have the same tuple. -/
theorem connections_share_tuple : ∃ x, Visited x ∧ (x.state.conns 0).Active ∧
    (x.state.conns 1).Active ∧ (x.state.conns 0).SameTuple (x.state.conns 1) := by
  refine ⟨play hostMac 1000 crossingOpens, visited_play hostMac 1000 crossingOpens, ?_⟩
  decide +kernel

end JuampiOs.Net
