import Mathlib.Data.List.TakeWhile
import JuampiOs.Net.Calls

/-!
# Runs of the stack

Two ways to use the step relation. `Stepped.keeps` and `Stepped.track` are the induction over a
whole run: what holds at boot and survives every piece holds at every point a run visits.
`play` goes the other way and produces a run from what the environment answers, one `Move` for
each question of the code.
-/

namespace JuampiOs.Net

open Lib Lib.Lang List Option Event TcpConn Stack

/-! ## What holds in every run -/

/-- A point that steps of the step relation reach from boot. -/
def Stepped (x : Point) : Prop := ∃ mac, Relation.ReflTransGen Api ⟨Stack.boot mac, []⟩ x

variable {x : Point} {a : ApiCall} {tr : List Event} {moves : List Move}

theorem Visited.stepped (h : Visited x) : Stepped x := visited_steps h

theorem Stepped.keeps {P : Point → Prop} (hboot : ∀ mac, P ⟨Stack.boot mac, []⟩)
    (hstep : ∀ x y, Stepped x → Api x y → P x → P y) (h : Stepped x) : P x := by
  obtain ⟨mac, hsteps⟩ := h
  induction hsteps with
  | refl => exact hboot mac
  | tail hs hxy ih => exact hstep _ _ ⟨mac, hs⟩ hxy ih

/-- A statement about connection `i` that survives every piece of work on it. -/
structure Tracked (i : Slot) (I : TcpConn → List Event → Prop) : Prop where
  zero : I .zero []
  skips : Skips i I
  served : ∀ n tr es c, Served n tr i es c → I (n.conns i) tr → I c (es ++ tr)
  acted : ∀ n tr es c, Acted n tr i es c → I (n.conns i) tr → I c (es ++ tr)

theorem Tracked.api {i : Slot} {I : TcpConn → List Event → Prop} (hI : Tracked i I) {y : Point}
    (h : Api x y) (hx : I (x.state.conns i) x.trace) : I (y.state.conns i) y.trace := by
  cases h with
  | called | returned => exact hI.skips _ _ _ (by simp [slot]) hx
  | work h =>
    cases h with
    | pump h => exact h.track hI.skips hI.served hx
    | udp n n' tr op _ _ hconns => exact (congrFun hconns i).symm ▸ hx
    | act n n' tr j es c hconns _ h =>
      by_cases hij : i = j
      · subst hij
        rw [setConn_same]
        exact hI.acted n tr es c h hx
      · rw [setConn_of_ne n' c hij, hconns]
        refine hI.skips.append (fun e he heq => hij ?_) hx
        rw [h.slot e he] at heq
        exact (some.inj heq).symm

theorem Api.at_slot {y : Point} (h : Api x y) (i : Slot) :
    y.state.conns i = x.state.conns i ∨
    ∃ es, y.trace = es ++ x.trace ∧ (Served x.state x.trace i es (y.state.conns i) ∨
      Acted x.state x.trace i es (y.state.conns i)) := by
  cases h with
  | called | returned => exact .inl rfl
  | work h =>
    cases h with
    | pump h =>
      cases h with
      | quiet n n' tr hconns _ => exact .inl (congrFun hconns i)
      | serve n tr j es c hs =>
        by_cases hij : i = j
        · subst hij
          exact .inr ⟨es, rfl, .inl ((setConn_same n i c).symm ▸ hs)⟩
        · exact .inl (setConn_of_ne n c hij)
    | udp n n' tr op _ _ hconns => exact .inl (congrFun hconns i)
    | act n n' tr j es c hconns _ ha =>
      by_cases hij : i = j
      · subst hij
        exact .inr ⟨es, rfl, .inr ((setConn_same n' i c).symm ▸ ha)⟩
      · exact .inl ((setConn_of_ne n' c hij).trans (congrFun hconns i))

theorem Api.udp {y : Point} (h : Api x y) : y.state.socks = x.state.socks ∨
    ∃ op : UdpOp, op.Enabled x.state ∧ y.state = (x.state.udpDo op).2 := by
  cases h with
  | called | returned => exact .inl rfl
  | work h =>
    cases h with
    | pump h =>
      cases h with
      | quiet n n' tr _ hs =>
        rcases hs with hsocks | ⟨srcIp, data, rfl⟩
        · exact .inl hsocks
        · exact .inr ⟨.arrive srcIp data, trivial, rfl⟩
      | serve => exact .inl rfl
    | act n n' tr j es c _ hsocks _ => exact .inl hsocks
    | udp n n' tr op henabled hn _ => exact .inr ⟨op, henabled, hn⟩

/-- **Every point of every run of the kernel is one of a run of the socket layer.** -/
theorem Visited.udpRun (h : Visited x) : ∃ mac tr, UdpRun mac tr x.state := by
  obtain ⟨mac, hsteps⟩ := visited_steps h
  refine ⟨mac, chain_keeps (I := fun x : Point => ∃ tr, UdpRun mac tr x.state) ?_ hsteps ⟨[], .boot⟩⟩
  rintro y z hstep ⟨tr, hrun⟩
  rcases hstep.udp with hsocks | ⟨op, henabled, hz⟩
  · exact ⟨tr, .other hrun hsocks⟩
  · rw [hz]
    exact ⟨_, .step hrun op henabled⟩

/-- **What holds of one connection in every run**: it holds of a record that was never used, and
every piece of work on the connection keeps it. -/
theorem Stepped.track {i : Slot} {I : TcpConn → List Event → Prop} (hI : Tracked i I)
    (h : Stepped x) : I (x.state.conns i) x.trace :=
  h.keeps (P := fun x => I (x.state.conns i) x.trace) (fun _ => hI.zero) fun _ _ _ => hI.api

/-- A log that ends with a return is that of a point at which the call was ready to return. -/
theorem Stepped.returned (h : Stepped x) {r : Reply}
    (htr : x.trace = .returned a r :: tr) : ∃ n, Stepped ⟨n, tr⟩ ∧ Returns n tr a r := by
  refine h.keeps (P := fun x => ∀ a r tr, x.trace = .returned a r :: tr →
    ∃ n, Stepped ⟨n, tr⟩ ∧ Returns n tr a r) (by simp) ?_ a r tr htr
  intro x y hx hxy ih a r tr htr
  cases hxy with
  | called n tr' a' => exact absurd htr (by simp)
  | returned n tr' a' r' h =>
    obtain ⟨hhead, rfl⟩ := cons.inj htr
    obtain ⟨rfl, rfl⟩ := returned.inj hhead
    exact ⟨n, hx, h⟩
  | work h =>
    obtain ⟨es, hes, hslot⟩ := h.trace
    cases es with
    | nil => exact ih a r tr (hes.symm.trans htr)
    | cons e es =>
      obtain ⟨rfl, _⟩ := cons.inj (hes.symm.trans htr)
      exact absurd rfl (hslot (.returned a r) (by simp))

/-! ### Records that have not sent anything -/

/-- Nothing is outstanding on a record that is closed or listens, and while it listens it has no
peer. -/
structure Idle (c : TcpConn) : Prop where
  closed : c.state = .closed → c.inUse = false ∧ c.retxLen = 0
  listen : c.state = .listen → c.retxLen = 0 ∧ c.peerIp = 0 ∧ c.peerPort = 0

/-- What is known of a record before its first segment. -/
structure Fresh (i : Slot) (c : TcpConn) (tr : List Event) : Prop extends Idle c where
  passive : ∀ srcIp seg, tr.head? = some (.passive i srcIp seg) → c.retxLen = 0
  opened : ∀ c' conns, tr.head? = some (.opened i c' conns) → c'.retxLen = 0

section Fresh

variable {i : Slot} {tr : List Event} {c c' : TcpConn}

/-- An event that opens the record `i`, actively or passively. -/
def Event.isOpening (i : Slot) : Event → Bool
  | .opened j _ _ => j = i
  | .passive j _ _ => j = i
  | _ => false

theorem Idle.log (h : Idle c) {e : Event} (he : e.isOpening i = false) : Fresh i c (e :: tr) where
  toIdle := h
  passive srcIp seg heq := by
    rw [head?_cons, some.injEq] at heq
    simp [heq, isOpening] at he
  opened c' conns heq := by
    rw [head?_cons, some.injEq] at heq
    simp [heq, isOpening] at he

theorem Fresh.past {e : Event} (hc : c.state ≠ .closed) (hl : c.state ≠ .listen)
    (he : e.isOpening i = false) : Fresh i c (e :: tr) :=
  Idle.log ⟨fun h => absurd h hc, fun h => absurd h hl⟩ he

theorem Fresh.update (h : Fresh i c tr)
    (hstate : c'.state = c.state ∨ (c'.state ≠ .closed ∧ c'.state ≠ .listen))
    (huse : c.inUse = false → c'.inUse = false) (hlen : c.retxLen = 0 → c'.retxLen = 0)
    (hip : c'.peerIp = c.peerIp) (hport : c'.peerPort = c.peerPort) : Fresh i c' tr where
  closed hc := by
    have := h.closed (hstate.elim (· ▸ hc) fun hne => absurd hc hne.1)
    exact ⟨huse this.1, hlen this.2⟩
  listen hl := by
    have := h.listen (hstate.elim (· ▸ hl) fun hne => absurd hl hne.2)
    exact ⟨hlen this.1, hip.trans this.2.1, hport.trans this.2.2⟩
  passive srcIp seg heq := hlen (h.passive srcIp seg heq)
  opened := h.opened

end Fresh

/-- **Nothing is outstanding on a record that has not sent anything.** -/
theorem fresh_tracked (i : Slot) : Tracked i (Fresh i) where
  zero := ⟨⟨fun _ => ⟨rfl, rfl⟩, fun h => absurd h (by decide)⟩, by simp, by simp⟩
  skips c e tr he h := h.log <| by
    cases e <;> simp_all [slot, isOpening]
  served n tr es c hs h := by
    cases hs with
    | sent | emitted => exact h.log rfl
    | passive srcIp seg ns hfind hsyn hlisten =>
      have hlen := (h.listen (listener_spec hlisten).2.1).1
      exact ⟨⟨by rintro ⟨⟩, by rintro ⟨⟩⟩, fun _ _ _ => hlen, by simp⟩
    | answer srcIp seg bytes now hhead hstate =>
      refine Fresh.past ?_ ?_ rfl <;> rw [record_state, hstate] <;> decide
    | reset | giveUp => exact Fresh.past (by simp) (by simp) rfl
    | ack srcIp seg hfind hrst =>
      refine (h.update ?_ ?_ ?_ ?_ ?_).log rfl
      · rw [ackUpdate_state]
        split
        · exact .inr ⟨by decide, by decide⟩
        · exact .inl rfl
      all_goals simp +contextual
    | synAck | finish | closed => exact h.update (.inr ⟨by simp, by simp⟩) id id rfl rfl
    | accept | acceptFin | resend =>
      refine Idle.log ?_ rfl
      exact Fresh.toIdle (h.update (.inl rfl) id id rfl rfl)
  acted n tr es c ha h := by
    cases ha with
    | connect dstIp port iss hfree =>
      exact ⟨⟨by rintro ⟨⟩, by rintro ⟨⟩⟩, by simp, by simp [connecting, zero]⟩
    | listen port hfree =>
      exact ⟨⟨by rintro ⟨⟩, fun _ => ⟨rfl, rfl, rfl⟩⟩, by simp, by simp [listening, zero]⟩
    | emit flags len bytes now hemits hbytes =>
      have hstate : (n.conns i).state ≠ .closed ∧ (n.conns i).state ≠ .listen := by
        cases hemits <;> simp [*]
      refine Fresh.past ?_ ?_ rfl <;> rw [record_state]
      exacts [hstate.1, hstate.2]
    | emitted => exact h.log rfl
    | waitFin d hfly huse hdrop => exact h.update (.inr ⟨by simp, by simp⟩) id id rfl rfl
    | drain k hk =>
      refine Idle.log ?_ rfl
      exact Fresh.toIdle (h.update (.inl rfl) id id rfl rfl)
    | release =>
      refine Idle.log ?_ rfl
      exact Fresh.toIdle (h.update (.inl rfl) (fun _ => rfl) id rfl rfl)

/-! ## Runs that are played -/

/-- What the environment answers to one question of the code. -/
inductive Move where
  | clock (t : UInt64)
  | frame (f : List UInt8)
  | idle
  | sent (ok : Bool)
  | call (a : ApiCall)

/-- The answer to a question; a move that does not fit counts as silence. -/
def Move.reply : Move → (q : Query) → q.Answer
  | .clock t, .ktimeMs => t
  | .clock t, .ktimeUs => t
  | .clock t, .ktimeNs => t
  | .frame f, .rxPoll => some f
  | .sent ok, .tx _ => ok
  | .call a, .nextCall => a
  | _, .ktimeMs => 0
  | _, .ktimeUs => 0
  | _, .ktimeNs => 0
  | _, .rxPoll => none
  | _, .tx _ => true
  | _, .nextCall => .poll

/-- The point at which a run stops once the environment has made its moves, or after `fuel`
steps. -/
def play (mac : Mac) (fuel : Nat) (moves : List Move) : Point :=
  (exec body Move.reply fuel moves (start mac)).point

theorem visited_play (mac : Mac) (fuel : Nat) (moves : List Move) : Visited (play mac fuel moves) :=
  ⟨mac, _, reaches_exec fuel moves (start mac)⟩

variable {mac : Mac} {fuel : Nat}

theorem moves_play (h : play mac (fuel + 1) moves ≠ play mac fuel moves) :
    Moves (play mac fuel moves) (play mac (fuel + 1) moves) := by
  have hstep := (@step_exec _ _ body _ Move.reply fuel moves (start mac)).resolve_left
    fun heq => h (congrArg Config.point heq)
  exact ⟨mac, _, _, reaches_exec fuel moves (start mac), hstep⟩

/-! ### The last call of a log -/

/-- The events since the last call was made. -/
def sinceCall (tr : List Event) : List Event := tr.takeWhile fun e => !e.isCalled

/-- The last call and the connections when it was made. -/
def lastCall : List Event → Option (ApiCall × (Slot → TcpConn))
  | [] => none
  | .called a conns :: _ => some (a, conns)
  | _ :: tr => lastCall tr

/-- The call a log ends with the return of, and what it returned. -/
def lastReturn : List Event → Option (ApiCall × Int)
  | .returned a r :: _ => some (a, r.ret)
  | _ => none

theorem isCalled_of_mem_sinceCall {e : Event} (h : e ∈ sinceCall tr) : e.isCalled = false := by
  simpa using mem_takeWhile_imp h

theorem cut_lastCall {conns : Slot → TcpConn}
    (h : lastCall tr = some (a, conns)) : ∃ tr', tr = sinceCall tr ++ .called a conns :: tr' := by
  induction tr with
  | nil => simp [lastCall] at h
  | cons e tr ih =>
    cases e with
    | called b conns' =>
      simp only [lastCall, some.injEq, Prod.mk.injEq] at h
      obtain ⟨rfl, rfl⟩ := h
      exact ⟨tr, rfl⟩
    | _ =>
      obtain ⟨tr', htr'⟩ := ih h
      exact ⟨tr', congrArg (cons _) htr'⟩

theorem visited_lastReturn {v : Int}
    (hret : lastReturn (play mac fuel moves).trace = some (a, v)) :
    ∃ n r, Visited ⟨n, .returned a r :: (play mac fuel moves).trace.tail⟩ ∧ r.ret = v := by
  have hrun := visited_play mac fuel moves
  revert hret hrun
  generalize play mac fuel moves = x
  intro hret hrun
  obtain ⟨n, tr⟩ := x
  cases tr with
  | nil => simp [lastReturn] at hret
  | cons e tr =>
    cases e with
    | returned b r =>
      obtain ⟨rfl, rfl⟩ := hret
      exact ⟨n, r, hrun, rfl⟩
    | _ => simp [lastReturn] at hret

theorem visited_lastCall {v : Int}
    (hret : lastReturn (play mac fuel moves).trace = some (a, v))
    (hcall : (lastCall (play mac fuel moves).trace.tail).map Prod.fst = some a) :
    ∃ n r conns tr, Visited ⟨n, .returned a r ::
      (sinceCall (play mac fuel moves).trace.tail ++ .called a conns :: tr)⟩ ∧ r.ret = v := by
  obtain ⟨n, r, hrun, hr⟩ := visited_lastReturn hret
  obtain ⟨⟨b, conns⟩, hlast, rfl⟩ := map_eq_some_iff.1 hcall
  obtain ⟨tr, htr⟩ := cut_lastCall hlast
  exact ⟨n, r, conns, tr, htr ▸ hrun, hr⟩

/-! ### A host and its peer

The host is on a network whose gateway answers to `gatewayMac`; everything the peer sends comes
from port 80 and through that gateway. -/

def hostMac : Mac := fun k => UInt8.ofNat (k.val + 1)
def gatewayMac : Mac := fun k => UInt8.ofNat (k.val + 16)
def hostIp : UInt32 := 0x0A00020F
def gatewayIp : UInt32 := 0x0A000202
def peerIp : UInt32 := 0x01020304

/-- The first port `net_next_ephemeral` hands out. -/
def hostPort : UInt16 := 49152

/-- `net_config` with a gateway. -/
def configure (gatewayIp : UInt32) : Move := .call (.config hostIp 0xFFFFFF00 gatewayIp)

/-- The gateway answers an ARP request for its address. -/
def arpReply : Move :=
  .frame ((EthHdr.mk hostMac gatewayMac ethArp).bytes ++
    (ArpPkt.mk 1 ethIp 6 4 2 gatewayMac gatewayIp hostMac hostIp).bytes)

/-- A TCP segment from port 80 of `srcIp` to the host's port `dport`. -/
def segmentFrom (srcIp : UInt32) (dport : UInt16) (seq ack : UInt32) (flags : UInt8)
    (payload : List UInt8) : Move :=
  .frame ((EthHdr.mk hostMac gatewayMac ethIp).bytes ++
    (IpHdr.mk 0x45 0 (UInt16.ofNat (40 + payload.length)) 1 0 64 ipProtoTcp 0 srcIp hostIp).bytes ++
    (TcpHdr.mk 80 dport seq ack 0x50 flags 1000 0 0).bytes ++ payload)

/-- A segment of the connection the host opens first. -/
def peerSends (seq ack : UInt32) (flags : UInt8) (payload : List UInt8) : Move :=
  segmentFrom peerIp hostPort seq ack flags payload

/-- The host opens a connection to the peer, up to the wait for the answer to its SYN. The
clock reads 0, which is the first sequence number, and the gateway's address is resolved on
the way. -/
def connecting : List Move :=
  [configure gatewayIp, .call (.tcpConnect peerIp 80 1000), .clock 0, .clock 0, .sent true,
    .clock 0, .clock 1, arpReply, .idle, .clock 1, .sent true, .clock 2]

/-- The peer answers, with initial sequence number 5000, and the call returns connection 0. -/
def connected : List Move :=
  connecting ++ [peerSends 5000 1 (tcpSyn ||| tcpAckFlag) [], .sent true, .idle, .clock 3, .clock 3]

/-- The peer has sent its FIN, and the host has acknowledged it. -/
def peerFinished : List Move :=
  connected ++ [.call .poll, peerSends 5001 1 (tcpFin ||| tcpAckFlag) [], .sent true, .idle,
    .clock 5]

/-- A socket is opened and bound to port 5000, the gateway sends a datagram to it and it is
received. -/
def datagramReceived : List Move :=
  [configure gatewayIp, .call .udpOpen, .call (.udpBind 0 5000), .call .poll,
    .frame ((EthHdr.mk hostMac gatewayMac ethIp).bytes ++
      (IpHdr.mk 0x45 0 30 1 0 64 ipProtoUdp 0 gatewayIp hostIp).bytes ++ sampleDatagram [7, 8]),
    .idle, .clock 0, .call (.udpRecvfrom 0 100 1500), .clock 0]

/-- The bytes a call returned. -/
def Event.data : Event → List UInt8
  | .returned _ r => r.data
  | _ => []

/-- The datagram is handed to the caller. -/
theorem udpRun_datagramReceived : let x := play hostMac 1000 datagramReceived
    (∃ mac tr, UdpRun mac tr x.state) ∧ x.trace.head?.map Event.data = some [7, 8] := by
  exact ⟨(visited_play ..).udpRun, by decide +kernel⟩

end JuampiOs.Net
