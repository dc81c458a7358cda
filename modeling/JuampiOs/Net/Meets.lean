import JuampiOs.Net.Steps

/-!
# The code takes only the steps of the step relation

`contract` says for every procedure of the stack which pieces its commits are: those of the
pump for the pump and for the loops that only wait, those of the calls for the rest. `met`
checks the bodies against it, one function of the source after the other; each function has
one lemma that says what it may do, and its callers use that lemma.
-/

namespace JuampiOs.Net

open Lib Lib.Lang Contract TcpConn Stack

/-- What the loop of `net_tcp_send`, entered with `sent` bytes behind it, has done when it
returns a positive number: unless the connection was finished in the middle of a transmission,
every byte up to there was acknowledged. -/
def SendPost (i : Slot) (data : List UInt8) (sent : Nat) (x : Point) (r : Int) (y : Point) :
    Prop :=
  0 < r → ∀ es, y.trace = es ++ x.trace → disturbed i es = false →
    ∀ j : Nat, sent ≤ j → (j : Int) < r →
      Acked i ((x.state.conns i).sndNxt - UInt32.ofNat sent) data j es

/-- The loop of `net_tcp_send` emits with nothing outstanding, except where it is entered. -/
def SendPre (i : Slot) (data : List UInt8) (sent : Nat) (x : Point) : Prop :=
  (sent = 0 ∧ (x.state.conns i).inUse = true ∧ ∃ id, slotOf id = some i ∧
    x.trace.head? = some (.called (.tcpSend id data) x.state.conns)) ∨
  (x.state.conns i).retxLen = 0

def contract : lang.Contract where
  guar
    | .sendLoop _ _ _ => Work
    | .kernel => Api
    | _ => Pump
  pre
    | .sendLoop i data sent, x => SendPre i data sent x
    | _, _ => True
  post
    | .sendLoop i data sent, x, r, y => SendPost i data sent x r y
    | .sendWait i _, x, r, y => r = true → (y.state.conns i).retxLen = 0 ∧
        (y = x ∨ (y.state.conns i).state ≠ .done)
    | .udpRecvWait s _, _, r, y => r = true → (y.state.socks s).q.len ≠ 0
    | .recvWait i _, _, r, y => (r = .eof → (y.state.conns i).rx.len = 0 ∧
        ((y.state.conns i).peerFin = true ∨ (y.state.conns i).state = .done)) ∧
        (r = .data → (y.state.conns i).rx.len ≠ 0)
    | _, _, _, _ => True

section Rules

variable {g : Point → Point → Prop} {x : Point} {α β : Type}

@[simp] theorem wp_stack {Q : Stack → Point → Prop} :
    contract.wp g stack x Q ↔ Q x.state x := Iff.rfl

@[simp] theorem wp_commit {n : Stack} {es : List Event} {Q : Unit → Point → Prop} :
    contract.wp g (commit n es) x Q ↔ g x ⟨n, es ++ x.trace⟩ ∧ Q () ⟨n, es ++ x.trace⟩ := Iff.rfl

variable {Q : UInt64 → Point → Prop}

@[simp] theorem wp_ktimeMs : contract.wp g ktimeMs x Q ↔ ∀ t, Q t x := Iff.rfl

@[simp] theorem wp_ktimeUs : contract.wp g ktimeUs x Q ↔ ∀ t, Q t x := Iff.rfl

@[simp] theorem wp_ktimeNs : contract.wp g ktimeNs x Q ↔ ∀ t, Q t x := Iff.rfl

@[simp] theorem wp_rxPoll {Q : Option (List UInt8) → Point → Prop} :
    contract.wp g rxPoll x Q ↔ ∀ f, Q f x := Iff.rfl

@[simp] theorem wp_tx {frame : List UInt8} {Q : Bool → Point → Prop} :
    contract.wp g (tx frame) x Q ↔ ∀ b, Q b x := Iff.rfl

theorem wp_proc {p : Proc} {Q : p.Result → Point → Prop} :
    contract.wp g (proc p) x Q ↔ (∀ y z, contract.guar p y z → g y z) ∧ contract.pre p x ∧
      ∀ r y, Relation.ReflTransGen (contract.guar p) x y → contract.post p x r y → Q r y := Iff.rfl

@[simp] theorem wp_conn {i : Slot} {Q : TcpConn → Point → Prop} :
    contract.wp g (conn i) x Q ↔ Q (x.state.conns i) x := Iff.rfl

@[simp] theorem wp_update {i : Slot} {f : TcpConn → TcpConn} {es : TcpConn → List Event}
    {Q : Unit → Point → Prop} :
    contract.wp g (update i f es) x Q ↔
      g x ⟨x.state.setConn i (f (x.state.conns i)), es (x.state.conns i) ++ x.trace⟩ ∧
      Q () ⟨x.state.setConn i (f (x.state.conns i)), es (x.state.conns i) ++ x.trace⟩ := Iff.rfl

@[simp] theorem wp_ite {c : Prop} [Decidable c] {p q : Code α} {Q : α → Point → Prop} :
    contract.wp g (if c then p else q) x Q ↔
      (c → contract.wp g p x Q) ∧ (¬c → contract.wp g q x Q) := by
  split <;> simp [*]

end Rules

/-! ## Output -/

section Output

variable {g : Point → Point → Prop} {x : Point}

theorem ethSend_wp (dst : Mac) (ethertype : UInt16) (l3 : List UInt8) :
    contract.wp g (ethSend dst ethertype l3) x fun _ y => y = x := by
  simp [ethSend, wp_bind]

theorem arpSendRequest_wp (ip : UInt32) : contract.wp g (arpSendRequest ip) x fun _ y => y = x := by
  simp only [arpSendRequest, wp_bind, wp_stack]
  exact wp_mono (ethSend_wp _ _ _) fun _ _ h => h

variable (hg : ∀ y z, Pump y z → g y z)
include hg

theorem arpResolve_wp (ip : UInt32) : contract.wp g (arpResolve ip) x fun _ y => Pumps x y := by
  simp only [arpResolve, wp_bind, wp_stack]
  cases x.state.arpLookup ip with
  | some m => exact .refl
  | none =>
    refine wp_seq (arpSendRequest_wp ip) ?_
    intro _ y hy
    subst hy
    intro now
    exact ⟨hg, trivial, fun r z hz _ => hz⟩

theorem ipEmit_wp (dmac : Mac) (srcIp dstIp : UInt32) (proto : UInt8) (l4 : List UInt8) :
    contract.wp g (ipEmit dmac srcIp dstIp proto l4) x fun _ y => Pumps x y := by
  have hquiet : Pump x ⟨{ x.state with ipIdCtr := x.state.ipIdCtr + 1 }, x.trace⟩ :=
    .quiet x.state _ x.trace rfl (.inl rfl)
  refine ⟨hg _ _ hquiet, wp_mono (ethSend_wp _ _ _) ?_⟩
  intro _ y hy
  subst hy
  exact .single hquiet

/-- Sending may run the pump, and does nothing else that concerns the connections. -/
theorem ipSend_wp (dstIp : UInt32) (proto : UInt8) (l4 : Stack → List UInt8) :
    contract.wp g (ipSend dstIp proto l4) x fun _ y => Pumps x y := by
  simp only [ipSend, wp_bind, wp_stack]
  refine wp_mono (arpResolve_wp hg _) ?_
  intro dmac y hy
  cases dmac with
  | none => exact hy
  | some dmac => exact wp_mono (ipEmit_wp hg _ _ _ _ _) fun _ z hz => hy.trans hz

/-- `tcp_ack` hands a bare acknowledgement of the current `rcv_nxt` to `ip_send`. -/
theorem tcpAck_wp (i : Slot) :
    contract.wp g (tcpAck i) x fun _ y =>
      Pumps ⟨x.state, .sent i ((x.state.conns i).segment x.state.myIp tcpAckFlag [])
        (x.state.conns i) :: x.trace⟩ y := by
  have hsent := Pump.serve x.state x.trace i _ _
    (.sent ((x.state.conns i).segment x.state.myIp tcpAckFlag []))
  rw [setConn_self] at hsent
  simp only [tcpAck, wp_bind, wp_stack, wp_update, id, setConn_self]
  exact ⟨hg _ _ hsent, wp_mono (ipSend_wp hg _ _ _) fun _ y hy => hy⟩

/-- The point after `tcp_emit` has recorded its segment. -/
def recorded (x : Point) (i : Slot) (flags : UInt8) (data : List UInt8) (now : UInt64) : Point :=
  let c := x.state.conns i
  let seg := c.segment x.state.myIp flags data
  ⟨x.state.setConn i (c.record flags data.length seg now),
    .sent i seg c :: .emit i flags data.length c :: x.trace⟩

/-- `tcp_emit` records its segment, runs the pump while it transmits and returns. The caller
has to allow the first and the last of these. -/
theorem tcpEmit_wp (i : Slot) (flags : UInt8) (data : List UInt8)
    (hemit : ∀ now, g x (recorded x i flags (data.take tcpMss) now))
    (hdone : ∀ now z, Pumps (recorded x i flags (data.take tcpMss) now) z →
      g z ⟨z.state, .emitted i :: z.trace⟩) :
    contract.wp g (tcpEmit i flags data) x fun _ y => ∃ now z,
      Pumps (recorded x i flags (data.take tcpMss) now) z ∧
      y = ⟨z.state, .emitted i :: z.trace⟩ := by
  simp only [tcpEmit, wp_bind, wp_stack, wp_ktimeMs, wp_commit]
  intro now
  refine ⟨hemit now, wp_mono (ipSend_wp hg _ _ _) ?_⟩
  intro _ z hz
  simp only [wp_update, id, setConn_self]
  exact ⟨hdone now z hz, now, z, hz, rfl⟩

end Output

/-! ## TCP input -/

section Input

variable {g : Point → Point → Prop} {α : Type} {p : Code α} {x : Point}

/-- The program takes only steps that `g` allows. -/
abbrev Does (g : Point → Point → Prop) (p : Code α) (x : Point) : Prop :=
  contract.wp g p x fun _ _ => True

theorem does_of_wp {Q : α → Point → Prop} (h : contract.wp g p x Q) : Does g p x :=
  wp_mono h fun _ _ _ => trivial

theorem Does.post (h : Does g p x) {Q : α → Point → Prop}
    (hQ : ∀ a y, Relation.ReflTransGen g x y → Q a y) : contract.wp g p x Q :=
  wp_mono (wp_chain h) fun a y hy => hQ a y hy.1

theorem pump_refl : ∀ y z, Pump y z → Pump y z := fun _ _ h => h

theorem Pumps.finWait {x y : Point} (h : Pumps x y) {i : Slot}
    (hy : (y.state.conns i).state = .finWait) : (x.state.conns i).state = .finWait := by
  by_contra hx
  refine h.keeps (i := i) (I := fun c => c.state ≠ .finWait) ?_ hx hy
  exact fun n tr es c hs hc hwait => hc (hs.finWait hwait)

theorem Pumps.peerFin {x y : Point} (h : Pumps x y) {i : Slot}
    (hx : (x.state.conns i).peerFin = true) : (y.state.conns i).peerFin = true := by
  refine h.keeps (i := i) (I := fun c => c.peerFin = true) ?_ hx
  intro n tr es c hs hc
  cases hs with
  | answer => rwa [record_peerFin]
  | ack => rwa [ackUpdate_peerFin]
  | acceptFin => rfl
  | _ => exact hc

variable {i : Slot} {srcIp : UInt32} {seg : Segment} {c : TcpConn} {data : List UInt8}

@[simp] theorem tcpAck_does : Does Pump (tcpAck i) x := does_of_wp (tcpAck_wp pump_refl i)

@[simp] theorem ipSend_does {dstIp : UInt32} {proto : UInt8} {l4 : Stack → List UInt8} :
    Does Pump (ipSend dstIp proto l4) x :=
  does_of_wp (ipSend_wp pump_refl _ _ _)

theorem tcpData_does (hmem : .delivered i srcIp seg c ∈ since i x.trace) (hrst : seg.isRst = false)
    (hc : c.state ≠ .synSent) : Does Pump (tcpData i seg) x := by
  simp only [tcpData, wp_bind, wp_stack]
  split
  · rename_i hin
    exact wp_bind.2 ⟨.serve _ _ i _ _ (.accept srcIp seg c hmem hrst hc hin), tcpAck_does⟩
  · simp

theorem tcpFinSeg_does (hmem : .delivered i srcIp seg c ∈ since i x.trace)
    (hrst : seg.isRst = false) (hc : c.state ≠ .synSent) : Does Pump (tcpFinSeg i seg) x := by
  simp only [tcpFinSeg, wp_bind, wp_conn]
  split
  · rename_i hfin
    simp only [wp_bind, wp_update]
    refine ⟨.serve _ _ i _ _ (.acceptFin srcIp seg c hmem hrst hc hfin), ?_⟩
    refine tcpAck_does.post fun _ y (hy : Pumps _ y) => ?_
    -- the acknowledgement may have run the pump, which keeps what the last statement needs
    have hseen : .finSeen i seg (x.state.conns i) ∈ since i y.trace :=
      hy.mem_since (by simp [Event.opens])
    have hpeer : (y.state.conns i).peerFin = true := hy.peerFin (by simp [acceptFin])
    simp only [wp_conn]
    split
    · rename_i hstate
      have hbefore := hy.finWait hstate
      simp only [setConn_same, acceptFin] at hbefore
      exact ⟨.serve _ _ i _ _ (.finish seg _ hseen hbefore hstate hpeer), trivial⟩
    · trivial
  · trivial

theorem tcpClosed_does : Does Pump (tcpClosed i) x := by
  simp only [tcpClosed, wp_bind, wp_conn]
  split
  · rename_i h
    exact ⟨.serve _ _ i _ _ (.closed h.1 h.2.1 h.2.2), trivial⟩
  · trivial

theorem tcpSegment_does (hfind : x.state.tcpFind srcIp seg.sport seg.dport = some i) :
    Does Pump (tcpSegment i srcIp seg) x := by
  unfold tcpSegment
  by_cases hrst : seg.isRst = true
  · rw [if_pos hrst]
    exact ⟨.serve _ _ i _ _ (.reset srcIp seg hfind hrst), trivial⟩
  rw [Bool.not_eq_true] at hrst
  rw [if_neg (by simp [hrst])]
  simp only [wp_bind, wp_update, wp_conn]
  refine ⟨.serve _ _ i _ _ (.ack srcIp seg hfind hrst), ?_⟩
  have hmem : .delivered i srcIp seg (x.state.conns i) ∈
      since i ([.delivered i srcIp seg (x.state.conns i)] ++ x.trace) := by simp [Event.opens]
  simp only [setConn_same]
  split
  · rename_i hstate
    split
    · rename_i hflags
      rw [Bool.and_eq_true] at hflags
      refine ⟨.serve _ _ i _ _ (.synAck srcIp seg (x.state.conns i) x.trace rfl
        (setConn_same _ _ _) hrst ?_ hflags.1 hflags.2), tcpAck_does⟩
      rw [setConn_same]
      exact hstate
    · trivial
  · rename_i hstate
    have hc : (x.state.conns i).state ≠ .synSent := fun h =>
      hstate (by rw [ackUpdate_state_of_ne _ _ (by rw [h]; decide), h])
    refine wp_bind.2 ((tcpData_does hmem hrst hc).post fun _ y (hy : Pumps _ y) => wp_bind.2 ?_)
    exact (tcpFinSeg_does (hy.mem_since hmem) hrst hc).post fun _ _ _ => tcpClosed_does

theorem tcpInput_does : Does Pump (tcpInput srcIp data) x := by
  unfold tcpInput
  split
  · trivial
  rename_i seg _
  simp only [wp_bind, wp_stack]
  split
  · rename_i i hfind
    exact tcpSegment_does hfind
  rename_i hfind
  split
  · rename_i hsyn
    split
    · rename_i i hlisten
      simp only [wp_bind, wp_ktimeNs, wp_update]
      intro ns
      refine ⟨.serve _ _ i _ _ (.passive srcIp seg _ hfind hsyn hlisten), ?_⟩
      refine does_of_wp (tcpEmit_wp pump_refl i _ [] ?_ ?_)
      · intro now
        refine .serve _ _ i _ _ (.answer srcIp seg _ now rfl ?_ ?_)
        · rw [setConn_same]
          rfl
        · exact List.append_ne_nil_of_left_ne_nil (List.cons_ne_nil _ _) _
      · intro now z hz
        have hlast := hz.lastEmit (i := i) (by simp [recorded, passiveOpen]) (by simp [recorded])
        have hdone := Pump.serve z.state z.trace i _ _
          (.emitted ((x.state.conns i).passiveOpen srcIp seg ns.toUInt32)
            (hlast.trans (by simp [recorded, lastEmit])))
        rwa [setConn_self] at hdone
    · trivial
  · trivial

end Input

/-! ## The timer and the rest of the input -/

section Pump

variable {x : Point} {srcIp : UInt32} {data : List UInt8}

theorem tcpTickConn_does (now : UInt64) (i : Slot) : Does Pump (tcpTickConn now i) x := by
  simp only [tcpTickConn, wp_bind, wp_conn]
  split
  · trivial
  rename_i hretx
  have hout : (x.state.conns i).retxLen ≠ 0 := by
    intro h
    simp [h] at hretx
  split
  · trivial
  · split
    · exact ⟨.serve _ _ i _ _ (.giveUp hout), trivial⟩
    · simp only [wp_bind, wp_update]
      exact ⟨.serve _ _ i _ _ (.resend now _ hout), ipSend_does⟩

theorem forM_does {α : Type} {f : α → Code Unit} (hf : ∀ a x, Does Pump (f a) x) (l : List α)
    (x : Point) : Does Pump (l.forM f) x := by
  induction l generalizing x with
  | nil => trivial
  | cons a l ih => exact wp_bind.2 ((hf a x).post fun _ y _ => ih y)

theorem tcpTick_does : Does Pump tcpTick x := by
  exact fun now => forM_does (fun i x => tcpTickConn_does now i) _ x

theorem udpInput_does : Does Pump (udpInput srcIp data) x := by
  have harrive : Pump x ⟨x.state.udpArrive srcIp data, x.trace⟩ :=
    .quiet _ _ _ (udpArrive_conns _ _ _) (.inr ⟨srcIp, data, rfl⟩)
  unfold udpArrive datagram at harrive
  unfold udpInput
  split
  · trivial
  rename_i hlen
  rw [if_neg hlen] at harrive
  simp only at harrive ⊢
  split
  · trivial
  rename_i hudp
  rw [if_neg hudp] at harrive
  simp only [wp_bind, wp_stack]
  cases hsock : x.state.boundSock (UdpHdr.parse data).dport with
  | none => trivial
  | some s =>
    simp only [hsock] at harrive ⊢
    split
    · rename_i hroom
      rw [dif_pos hroom] at harrive
      exact ⟨harrive, trivial⟩
    · trivial

theorem icmpInput_does : Does Pump (icmpInput srcIp data) x := by
  have hquiet : ∀ us got, Pump x ⟨{ x.state with pingRttUs := us, pingGot := got }, x.trace⟩ :=
    fun _ _ => .quiet _ _ _ rfl (.inl rfl)
  simp [icmpInput, wp_bind, hquiet]

theorem ipInput_does : Does Pump (ipInputWith Layer4.input data) x := by
  simp [ipInputWith, Layer4.input, wp_bind, icmpInput_does, udpInput_does, tcpInput_does]

theorem arpInput_does : Does Pump (arpInput data) x := by
  have hquiet : ∀ ip mac, Pump x ⟨x.state.arpInsert ip mac, x.trace⟩ :=
    fun _ _ => .quiet _ _ _ rfl (.inl rfl)
  simp [arpInput, ethSend, wp_bind, hquiet]

theorem etherInput_does : Does Pump (etherInput data) x := by
  simp [etherInput, etherInputWith, wp_bind, arpInput_does, ipInput_does]

/-! ### The procedures of the pump -/

theorem rxLoop_does : Does Pump rxLoop x := by
  simp only [rxLoop, wp_bind, wp_rxPoll]
  intro f
  cases f with
  | none => trivial
  | some f =>
    exact wp_bind.2 (etherInput_does.post fun _ y _ =>
      ⟨pump_refl, trivial, fun _ _ _ _ => trivial⟩)

theorem netPoll_does : Does Pump netPoll x := by
  simp only [netPoll, wp_bind, wp_stack]
  split
  · exact wp_proc.2 ⟨pump_refl, trivial, fun _ _ _ _ => tcpTick_does⟩
  · trivial

theorem poll_wp {g : Point → Point → Prop} (hg : ∀ y z, Pump y z → g y z) :
    contract.wp g (proc .netPoll) x fun _ y => Pumps x y :=
  wp_proc.2 ⟨hg, trivial, fun _ _ hy _ => hy⟩

/-- The recursive call of a loop of the pump. -/
theorem again_wp {p : Proc} (hp : contract.guar p = Pump) (hpre : contract.pre p x) :
    Does Pump (proc p) x :=
  wp_proc.2 ⟨hp ▸ pump_refl, hpre, fun _ _ _ _ => trivial⟩

variable (i : Slot) (deadline : UInt64)

theorem arpWait_does (ip : UInt32) : Does Pump (arpWait ip deadline) x := by
  simp only [arpWait, wp_bind, wp_ktimeMs]
  intro now
  split
  · refine wp_seq (poll_wp pump_refl) fun _ y _ => ?_
    simp only [wp_bind, wp_stack]
    split
    · trivial
    · exact again_wp rfl trivial
  · trivial

theorem pingWait_does : Does Pump (pingWait deadline) x := by
  simp only [pingWait, wp_bind, wp_stack]
  split
  · trivial
  · refine wp_seq (poll_wp pump_refl) fun _ y _ => ?_
    simp only [wp_bind, wp_ktimeMs]
    intro now
    split
    · trivial
    · exact again_wp rfl trivial

theorem udpRecvWait_wp (s : Sock) :
    contract.wp Pump (udpRecvWait s deadline) x (contract.post (.udpRecvWait s deadline) x) := by
  simp only [udpRecvWait, wp_bind, wp_stack]
  split
  · refine wp_seq (poll_wp pump_refl) fun _ y _ => ?_
    simp only [wp_bind, wp_ktimeMs]
    intro now
    split
    · exact nofun
    · exact wp_proc.2 ⟨pump_refl, trivial, fun _ _ _ h => h⟩
  · rename_i hlen
    exact fun _ => hlen

theorem waitWhile_wp {waits : TcpConn → Prop} [DecidablePred waits] {again : Code Bool}
    {Q : Bool → Point → Prop} (hfail : ∀ y, Q false y)
    (hnow : ¬ waits (x.state.conns i) → Q true x)
    (hagain : ∀ y, (y.state.conns i).state ≠ .done → contract.wp Pump again y Q) :
    contract.wp Pump (waitWhile i waits deadline again) x Q := by
  simp only [waitWhile, wp_bind, wp_conn]
  split
  · refine wp_seq (poll_wp pump_refl) fun _ y _ => ?_
    simp only [wp_bind, wp_conn]
    split
    · exact hfail y
    rename_i hopen
    simp only [wp_bind, wp_ktimeMs]
    intro now
    split
    · exact hfail y
    · exact hagain y hopen
  · rename_i hdone
    exact hnow hdone

theorem connectWait_does : Does Pump (connectWait i deadline) x :=
  waitWhile_wp i deadline (fun _ => trivial) (fun _ => trivial) fun _ _ => again_wp rfl trivial

theorem acceptWait_does : Does Pump (acceptWait i deadline) x :=
  waitWhile_wp i deadline (fun _ => trivial) (fun _ => trivial) fun _ _ => again_wp rfl trivial

theorem closeWait_does : Does Pump (closeWait i deadline) x := by
  simp only [closeWait, wp_bind, wp_conn]
  split
  · simp only [wp_bind, wp_ktimeMs]
    intro now
    split
    · exact wp_seq (poll_wp pump_refl) fun _ _ _ => again_wp rfl trivial
    · trivial
  · trivial

/-- The wait of `net_tcp_recv` reports the end of the stream with an empty ring, and only if
the peer has finished or the connection is done. -/
theorem recvWait_wp :
    contract.wp Pump (recvWait i deadline) x (contract.post (.recvWait i deadline) x) := by
  simp only [recvWait, wp_bind, wp_conn]
  split
  · rename_i hempty
    split
    · rename_i hend
      exact ⟨fun _ => ⟨hempty, hend⟩, nofun⟩
    refine wp_seq (poll_wp pump_refl) fun _ y _ => ?_
    simp only [wp_bind, wp_ktimeMs]
    intro now
    split
    · exact ⟨nofun, nofun⟩
    · exact wp_proc.2 ⟨pump_refl, trivial, fun _ _ _ h => h⟩
  · rename_i hdata
    exact ⟨nofun, fun _ => hdata⟩

/-- The wait of `net_tcp_send` succeeds with nothing outstanding: at once, or on a connection
that is not done. -/
theorem sendWait_wp :
    contract.wp Pump (sendWait i deadline) x (contract.post (.sendWait i deadline) x) := by
  refine waitWhile_wp i deadline (fun _ => nofun) (fun hretx _ => ⟨not_not.1 hretx, .inl rfl⟩) ?_
  intro y hopen
  refine wp_proc.2 ⟨pump_refl, trivial, fun r z _ hz hr => ?_⟩
  obtain ⟨hretx, hz⟩ := hz hr
  refine ⟨hretx, .inr ?_⟩
  -- a recursive call that succeeds at once is at `y`, which is not done
  obtain rfl | hz := hz
  · exact hopen
  · exact hz

end Pump

end JuampiOs.Net
