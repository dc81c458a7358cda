import JuampiOs.Net.Code

/-!
# UDP sockets

The socket layer of `udp.c` as a system of its own: the calls and the arriving datagrams are
its steps, in any order, and everything else the stack does leaves the sockets alone. A call
that waits (`net_udp_recvfrom`, and `net_udp_sendto` while it resolves an address) is the piece
of it that touches the sockets; what arrives in the meantime is steps of its own. That the code
takes no other steps is in `JuampiOs.Net.Runs`.

From the history of a run, `arrivals` reads off which datagrams came in for a socket since it
was opened, with a mark on those that found its queue full, and `taken` what
`net_udp_recvfrom` returned on it. `udp_fifo` relates the two: what was taken, followed by what
is queued, is what arrived without a mark.
-/

namespace JuampiOs.Net

open Lib Lib.Wire List Stack

/-! ## The pieces of the code -/

/-- What `udp_input` reads from a datagram: the port it is for and the entry it makes in the
queue, with at most `UDP_MSG_MAX` bytes of payload. -/
def datagram (srcIp : UInt32) (data : List UInt8) : Option (UInt16 × UdpDgram) :=
  if data.length < udpHdrSize then none
  else
    let u := UdpHdr.parse data
    if u.len.toNat < udpHdrSize ∨ data.length < u.len.toNat then none
    else
      let payload := (data.drop udpHdrSize).take (min (u.len.toNat - udpHdrSize) udpMsgMax)
      some (u.dport, ⟨srcIp, u.sport, payload.length, payload⟩)

namespace Stack

/-- `udp_input` -/
def udpArrive (n : Stack) (srcIp : UInt32) (data : List UInt8) : Stack :=
  match datagram srcIp data with
  | none => n
  | some (dport, d) =>
    match n.boundSock dport with
    | none => n
    | some s =>
      if h : (n.socks s).q.len + [d].length ≤ udpQueue then
        n.setSock s { n.socks s with q := (n.socks s).q.push [d] h }
      else n

/-- `net_udp_open` -/
def udpOpen (n : Stack) : Int × Stack :=
  match n.freeSock with
  | none => (-1, n)
  | some s => (s.val, n.setSock s ⟨true, 0, ⟨(n.socks s).q.cell, 0, 0, Nat.zero_le _⟩⟩)

/-- `net_udp_bind` -/
def udpBindTo (n : Stack) (s : Int) (port : UInt16) : Bool × Stack :=
  match sockOf s with
  | none => (false, n)
  | some s => n.udpBind s port

/-- `net_udp_sendto` up to the transmission. -/
def udpAutoBind (n : Stack) (s : Int) : Bool × Stack :=
  match sockOf s with
  | none => (false, n)
  | some k =>
    if !(n.socks k).inUse || !n.ready then (false, n)
    else if (n.socks k).localPort = 0 then n.udpBindTo s 0
    else (true, n)

/-- `net_udp_recvfrom` from the end of its wait on. -/
def udpTake (n : Stack) (s : Sock) (cap : UInt16) : Reply × Stack :=
  let k := n.socks s
  let d := k.q.cell (k.q.head % udpQueue)
  (⟨d.len, d.data.take cap.toNat, d.srcIp, d.srcPort, 0⟩, n.setSock s { k with q := k.q.pop 1 })

/-- `net_udp_close` -/
def udpClose (n : Stack) (s : Int) : Stack :=
  match sockOf s with
  | none => n
  | some s => n.setSock s { n.socks s with inUse := false }

end Stack

/-! ## Runs -/

/-- A step of the socket layer. -/
inductive UdpOp where
  | opens
  | bind (s : Int) (port : UInt16)
  | sendto (s : Int)
  | recvfrom (s : Sock) (cap : UInt16)
  | close (s : Int)
  | arrive (srcIp : UInt32) (data : List UInt8)

/-- What a step returns, and the stack after it. -/
def Stack.udpDo (n : Stack) : UdpOp → Reply × Stack
  | .opens => (⟨n.udpOpen.1, [], 0, 0, 0⟩, n.udpOpen.2)
  | .bind s port => (⟨(n.udpBindTo s port).1.toNat, [], 0, 0, 0⟩, (n.udpBindTo s port).2)
  | .sendto s => (⟨(n.udpAutoBind s).1.toNat, [], 0, 0, 0⟩, (n.udpAutoBind s).2)
  | .recvfrom s cap => n.udpTake s cap
  | .close s => (⟨0, [], 0, 0, 0⟩, n.udpClose s)
  | .arrive srcIp data => (⟨0, [], 0, 0, 0⟩, n.udpArrive srcIp data)

theorem Stack.udpArrive_conns (n : Stack) (srcIp : UInt32) (data : List UInt8) :
    (n.udpArrive srcIp data).conns = n.conns := by
  unfold udpArrive
  split
  · rfl
  · split
    · rfl
    · split <;> rfl

theorem Stack.udpArrive_inUse (n : Stack) (srcIp : UInt32) (data : List UInt8) (s : Sock) :
    ((n.udpArrive srcIp data).socks s).inUse = (n.socks s).inUse := by
  unfold udpArrive
  split
  · rfl
  split
  · rfl
  rename_i k _
  split
  · rcases eq_or_ne s k with rfl | hne
    · simp [setSock]
    · simp [setSock, Function.update_of_ne hne]
  · rfl

/-- `net_udp_recvfrom` gets to its end only on an open socket with a datagram queued. -/
def UdpOp.Enabled (n : Stack) : UdpOp → Prop
  | .recvfrom s _ => (n.socks s).inUse = true ∧ (n.socks s).q.len ≠ 0
  | _ => True

/-- A step in the history: what was done and the stack before it. -/
structure UdpEntry where
  before : Stack
  op : UdpOp

/-- The runs of the socket layer, the last step first. -/
inductive UdpRun (mac : Mac) : List UdpEntry → Stack → Prop where
  | boot : UdpRun mac [] (.boot mac)
  | step {tr : List UdpEntry} {n : Stack} (h : UdpRun mac tr n) (op : UdpOp)
      (henabled : op.Enabled n) : UdpRun mac (⟨n, op⟩ :: tr) (n.udpDo op).2
  /-- the rest of the stack -/
  | other {tr : List UdpEntry} {n n' : Stack} (h : UdpRun mac tr n) (hsocks : n'.socks = n.socks) :
      UdpRun mac tr n'

/-! ## What came in and what was handed out -/

namespace UdpEntry

/-- The step opened the socket. -/
def opensSock (s : Sock) (e : UdpEntry) : Bool :=
  match e.op with
  | .opens => e.before.freeSock == some s
  | _ => false

/-- The datagram that came in for the port the socket was bound to at that time, and whether its
queue was full. -/
def arrival (s : Sock) (e : UdpEntry) : Option (UdpDgram × Bool) :=
  match e.op with
  | .arrive srcIp data =>
    match datagram srcIp data with
    | some (dport, d) =>
      if (e.before.socks s).inUse ∧ (e.before.socks s).localPort = dport then
        some (d, (e.before.socks s).q.len == udpQueue)
      else none
    | none => none
  | _ => none

/-- The room the caller gave and what `net_udp_recvfrom` returned on the socket. -/
def take (s : Sock) (e : UdpEntry) : Option (UInt16 × Reply) :=
  match e.op with
  | .recvfrom s' cap => if s' = s then some (cap, (e.before.udpDo e.op).1) else none
  | _ => none

/-- A datagram that came in was not for port 0. -/
def Nonzero (e : UdpEntry) : Prop :=
  ∀ srcIp data, e.op = .arrive srcIp data → ∀ dport d, datagram srcIp data = some (dport, d) →
    dport ≠ 0

end UdpEntry

/-- The datagrams that arrived for a socket since it was opened, the first one first. -/
def arrivals (s : Sock) : List UdpEntry → List (UdpDgram × Bool)
  | [] => []
  | e :: tr => if e.opensSock s then [] else arrivals s tr ++ (e.arrival s).toList

/-- What was returned on a socket since it was opened. -/
def taken (s : Sock) : List UdpEntry → List (UInt16 × Reply)
  | [] => []
  | e :: tr => if e.opensSock s then [] else taken s tr ++ (e.take s).toList

/-- Those that did not find the queue full. -/
def kept (s : Sock) (tr : List UdpEntry) : List UdpDgram :=
  ((arrivals s tr).filter fun a => !a.2).map Prod.fst

/-- The call returned this datagram: its source, its length, and as many of its bytes as the
caller had room for. -/
def Handed (a : UInt16 × Reply) (d : UdpDgram) : Prop :=
  a.2 = ⟨d.len, d.data.take a.1.toNat, d.srcIp, d.srcPort, 0⟩

/-! ## The invariant -/

/-- No two open sockets share a port. -/
def PortsDistinct (n : Stack) : Prop :=
  ∀ s s', s ≠ s' → (n.socks s).inUse = true → (n.socks s').inUse = true →
    (n.socks s).localPort ≠ 0 → (n.socks s).localPort ≠ (n.socks s').localPort

/-- What was taken from the socket, followed by what is queued on it, is what was kept. -/
def Fifo (s : Sock) (tr : List UdpEntry) (n : Stack) : Prop :=
  ∃ ds, kept s tr = ds ++ (n.socks s).q.contents ∧ List.Forall₂ Handed (taken s tr) ds

section Steps

variable {n : Stack} {tr : List UdpEntry} {s : Sock} {op : UdpOp}

theorem portInUse_eq_false {p : UInt16} (h : n.portInUse p = false) (s : Sock)
    (huse : (n.socks s).inUse = true) : (n.socks s).localPort ≠ p := by
  intro hp
  have hall := any_eq_false.mp h s (mem_finRange s)
  simp [huse, hp] at hall

theorem boundSock_eq_some {dport : UInt16} (h : n.boundSock dport = some s) :
    (n.socks s).inUse = true ∧ (n.socks s).localPort = dport := by
  have hs := find?_some h
  simpa using hs

theorem boundSock_eq_none {dport : UInt16} (h : n.boundSock dport = none)
    (huse : (n.socks s).inUse = true) : (n.socks s).localPort ≠ dport := by
  intro hp
  have hs := find?_eq_none.mp h s (mem_finRange s)
  simp [huse, hp] at hs

/-- The search for an ephemeral port does not touch the sockets, and finds a free one. -/
theorem pickEphemeral_socks (tries : Nat) (n : Stack) :
    (Stack.pickEphemeral tries n).2.socks = n.socks ∧
      ∀ p, (Stack.pickEphemeral tries n).1 = some p → n.portInUse p = false := by
  induction tries generalizing n with
  | zero => exact ⟨rfl, nofun⟩
  | succ tries ih =>
    rw [pickEphemeral]
    split
    · exact ih n.nextEphemeral.2
    · rename_i hfree
      refine ⟨rfl, fun p hp => ?_⟩
      cases hp
      exact Bool.not_eq_true _ ▸ hfree

/-- What binding does to the sockets: nothing, or one gets a port no open socket has. -/
def Binds (n n' : Stack) : Prop :=
  n'.socks = n.socks ∨ ∃ k p, n.portInUse p = false ∧
    n'.socks = Function.update n.socks k { n.socks k with localPort := p }

theorem udpBind_socks (n : Stack) (s : Sock) (port : UInt16) : Binds n (n.udpBind s port).2 := by
  have hpick := pickEphemeral_socks 16384 n
  unfold udpBind
  split
  · exact .inl rfl
  split
  · split <;> rename_i heq <;> rw [heq] at hpick
    · exact .inl hpick.1
    · rename_i p n'
      refine .inr ⟨s, p, hpick.2 p rfl, ?_⟩
      show Function.update n'.socks s { n'.socks s with localPort := p } = _
      rw [hpick.1]
  · split
    · exact .inl rfl
    · rename_i hfree
      exact .inr ⟨s, port, by simpa using hfree, rfl⟩

theorem udpBindTo_socks (n : Stack) (s : Int) (port : UInt16) : Binds n (n.udpBindTo s port).2 := by
  unfold udpBindTo
  split
  · exact .inl rfl
  · exact udpBind_socks n _ port

theorem udpAutoBind_socks (n : Stack) (s : Int) : Binds n (n.udpAutoBind s).2 := by
  unfold udpAutoBind
  split
  · exact .inl rfl
  split
  · exact .inl rfl
  · split
    · exact udpBindTo_socks n s 0
    · exact .inl rfl

theorem update_q {k : Sock} {v : UdpSocket} (h : v.q = (n.socks k).q) (s : Sock) :
    (Function.update n.socks k v s).q = (n.socks s).q := by
  rw [Function.update_apply]
  split
  · rename_i hs
    rw [h, hs]
  · rfl

variable {n' : Stack}

theorem Binds.q (h : Binds n n') (s : Sock) : (n'.socks s).q = (n.socks s).q := by
  obtain h | ⟨k, p, -, h⟩ := h
  · rw [h]
  · rw [h]
    exact update_q (by rfl) s

theorem PortsDistinct.set (h : PortsDistinct n) {k : Sock} {v : UdpSocket}
    (hsocks : n'.socks = Function.update n.socks k v)
    (hv : ∀ s, s ≠ k → v.inUse = true → (n.socks s).inUse = true → v.localPort ≠ 0 →
      v.localPort ≠ (n.socks s).localPort) : PortsDistinct n' := by
  unfold PortsDistinct
  rw [hsocks]
  refine pairwise_update (R := fun a b : UdpSocket => a.inUse = true → b.inUse = true →
    a.localPort ≠ 0 → a.localPort ≠ b.localPort) (fun a b h hb ha hport heq => ?_) h hv
  exact h ha hb (heq ▸ hport) heq.symm

theorem PortsDistinct.binds (h : PortsDistinct n) (hb : Binds n n') :
    PortsDistinct n' := by
  obtain hs | ⟨k, p, hfree, hs⟩ := hb
  · unfold PortsDistinct
    rw [hs]
    exact h
  · exact h.set hs fun s _ _ huse _ => (portInUse_eq_false hfree s huse).symm

theorem PortsDistinct.setSock (h : PortsDistinct n) {k : UdpSocket}
    (hk : k.inUse = true → k.localPort ≠ 0 →
      (n.socks s).inUse = true ∧ k.localPort = (n.socks s).localPort) :
    PortsDistinct (n.setSock s k) := by
  refine h.set rfl fun a ha huse hause hport => ?_
  obtain ⟨hsuse, heq⟩ := hk huse hport
  exact heq ▸ h s a ha.symm hsuse hause (heq ▸ hport)

theorem Fifo.quiet (hF : Fifo s tr n) {e : UdpEntry} (hopen : e.opensSock s = false)
    (harr : e.arrival s = none) (htake : e.take s = none)
    (hq : (n'.socks s).q = (n.socks s).q) : Fifo s (e :: tr) n' := by
  obtain ⟨ds, hkept, hret⟩ := hF
  refine ⟨ds, ?_, ?_⟩
  · rw [hq, ← hkept, kept, kept, arrivals, if_neg (by simp [hopen]), harr]
    simp
  · rw [taken, if_neg (by simp [hopen]), htake]
    simpa using hret

theorem Fifo.opens (hF : Fifo s tr n) : Fifo s (⟨n, .opens⟩ :: tr) n.udpOpen.2 := by
  unfold udpOpen
  cases hfree : n.freeSock with
  | none =>
    refine hF.quiet ?_ rfl rfl rfl
    simp [UdpEntry.opensSock, hfree]
  | some k =>
    rcases eq_or_ne k s with rfl | hne
    · have hopen : (⟨n, .opens⟩ : UdpEntry).opensSock k = true := by
        simp [UdpEntry.opensSock, hfree]
      refine ⟨[], ?_, ?_⟩
      · rw [kept, arrivals, if_pos hopen]
        simp [setSock, Ring.contents, Ring.peek]
      · rw [taken, if_pos hopen]
        exact .nil
    · refine hF.quiet ?_ rfl rfl ?_
      · simp [UdpEntry.opensSock, hfree, hne]
      · simp [setSock, Function.update_of_ne hne.symm]

theorem Fifo.take (hF : Fifo s tr n) (k : Sock) (cap : UInt16) (hlen : (n.socks k).q.len ≠ 0) :
    Fifo s (⟨n, .recvfrom k cap⟩ :: tr) (n.udpTake k cap).2 := by
  rcases eq_or_ne k s with rfl | hne
  · obtain ⟨ds, hkept, hret⟩ := hF
    have hcons := Ring.contents_eq_cons (n.socks k).q hlen
    refine ⟨ds ++ [(n.socks k).q.cell ((n.socks k).q.head % udpQueue)], ?_, ?_⟩
    · have hq : ((n.udpTake k cap).2.socks k).q = (n.socks k).q.pop 1 := by
        simp [udpTake, setSock]
      rw [hq, append_assoc, singleton_append, ← hcons, ← hkept, kept, kept, arrivals,
        if_neg (by simp [UdpEntry.opensSock])]
      simp [UdpEntry.arrival]
    · rw [taken, if_neg (by simp [UdpEntry.opensSock])]
      refine rel_append hret ?_
      simp only [UdpEntry.take, if_true, Option.toList]
      exact .cons rfl .nil
  · refine hF.quiet rfl rfl ?_ ?_
    · simp [UdpEntry.take, hne]
    · simp [udpTake, setSock, Function.update_of_ne hne.symm]

theorem arrival_eq_none {srcIp : UInt32} {data : List UInt8}
    (h : ∀ dport d, datagram srcIp data = some (dport, d) →
      ¬ ((n.socks s).inUse = true ∧ (n.socks s).localPort = dport)) :
    (⟨n, .arrive srcIp data⟩ : UdpEntry).arrival s = none := by
  unfold UdpEntry.arrival
  dsimp only
  split
  · rename_i dport d hd
    exact if_neg (h dport d hd)
  · rfl

/-- A datagram is queued on the one socket bound to its port, if there is room. -/
theorem Fifo.arrive (hF : Fifo s tr n) (hports : PortsDistinct n) (srcIp : UInt32)
    (data : List UInt8) (hnz : ∀ dport d, datagram srcIp data = some (dport, d) → dport ≠ 0) :
    Fifo s (⟨n, .arrive srcIp data⟩ :: tr) (n.udpArrive srcIp data) := by
  unfold udpArrive
  cases hd : datagram srcIp data with
  | none =>
    refine hF.quiet rfl (arrival_eq_none ?_) rfl rfl
    intro dport d hd'
    rw [hd] at hd'
    cases hd'
  | some pd =>
    obtain ⟨dport, d⟩ := pd
    dsimp only
    cases hbound : n.boundSock dport with
    | none =>
      refine hF.quiet rfl (arrival_eq_none ?_) rfl rfl
      rintro dport' d' hd' ⟨huse, hport⟩
      rw [hd] at hd'
      cases hd'
      exact boundSock_eq_none hbound huse hport
    | some k =>
      obtain ⟨hkuse, hkport⟩ := boundSock_eq_some hbound
      dsimp only
      rcases eq_or_ne k s with rfl | hne
      · -- the socket the datagram is for
        have harr : (⟨n, .arrive srcIp data⟩ : UdpEntry).arrival k =
            some (d, (n.socks k).q.len == udpQueue) := by
          simp [UdpEntry.arrival, hd, hkuse, hkport]
        obtain ⟨ds, hkept, hret⟩ := hF
        have hcap := (n.socks k).q.len_le
        refine ⟨ds, ?_, ?_⟩
        · rw [kept, arrivals, if_neg (by simp [UdpEntry.opensSock]), harr, filter_append,
            map_append]
          change kept k tr ++ _ = _
          rw [hkept, append_assoc]
          split
          · rename_i hroom
            have hnot : ((n.socks k).q.len == udpQueue) = false := by
              simp only [length_singleton] at hroom
              rw [beq_eq_false_iff_ne]
              omega
            simp [setSock, Ring.contents_push, hnot]
          · rename_i hroom
            have hfull : ((n.socks k).q.len == udpQueue) = true := by
              simp only [length_singleton] at hroom
              rw [beq_iff_eq]
              omega
            simp [hfull]
        · rw [taken, if_neg (by simp [UdpEntry.opensSock])]
          simpa [UdpEntry.take] using hret
      · -- no other open socket has that port
        have hport0 : (n.socks k).localPort ≠ 0 := by
          rw [hkport]
          exact hnz dport d hd
        refine hF.quiet rfl (arrival_eq_none ?_) rfl ?_
        · rintro dport' d' hd' ⟨huse, hport⟩
          rw [hd] at hd'
          cases hd'
          exact hports k s hne hkuse huse hport0 (hkport.trans hport.symm)
        · split
          · simp [setSock, Function.update_of_ne hne.symm]
          · rfl

theorem PortsDistinct.step (h : PortsDistinct n) (op : UdpOp) : PortsDistinct (n.udpDo op).2 := by
  cases op with
  | opens =>
    show PortsDistinct n.udpOpen.2
    unfold udpOpen
    split
    · exact h
    · exact h.setSock fun _ hne => absurd rfl hne
  | bind s port => exact h.binds (udpBindTo_socks n s port)
  | sendto s => exact h.binds (udpAutoBind_socks n s)
  | recvfrom s cap => exact h.setSock fun huse _ => ⟨huse, rfl⟩
  | close s =>
    show PortsDistinct (n.udpClose s)
    unfold udpClose
    split
    · exact h
    · exact h.setSock nofun
  | arrive srcIp data =>
    show PortsDistinct (n.udpArrive srcIp data)
    unfold udpArrive
    split
    · exact h
    split
    · exact h
    · split
      · exact h.setSock fun huse _ => ⟨huse, rfl⟩
      · exact h

/-- **One step** of the socket layer keeps every socket's history and queue in line. -/
theorem Fifo.step (hF : Fifo s tr n) (hports : PortsDistinct n) (henabled : op.Enabled n)
    (hnz : (⟨n, op⟩ : UdpEntry).Nonzero) : Fifo s (⟨n, op⟩ :: tr) (n.udpDo op).2 := by
  cases op with
  | opens => exact hF.opens
  | bind k port => exact hF.quiet rfl rfl rfl ((udpBindTo_socks n k port).q s)
  | sendto k => exact hF.quiet rfl rfl rfl ((udpAutoBind_socks n k).q s)
  | recvfrom k cap => exact hF.take k cap henabled.2
  | close k =>
    refine hF.quiet rfl rfl rfl ?_
    show ((n.udpClose k).socks s).q = _
    unfold udpClose
    split
    · rfl
    · exact update_q (by rfl) s
  | arrive srcIp data => exact hF.arrive hports srcIp data (hnz srcIp data rfl)

end Steps

/-- **UDP sockets.** Whatever the calls and the datagrams that arrive (for ports other than 0):
no two open sockets have the same port, and what was returned on a socket since it was opened,
followed by what is queued on it, is what arrived for the port it was bound to at the time, in
the order of arrival, except for the datagrams that found four others queued. -/
theorem udp_fifo {mac : Mac} {tr : List UdpEntry} {n : Stack} (hrun : UdpRun mac tr n)
    (hnz : ∀ e ∈ tr, e.Nonzero) : PortsDistinct n ∧ ∀ s, Fifo s tr n := by
  induction hrun with
  | boot =>
    refine ⟨?_, fun s => ⟨[], rfl, .nil⟩⟩
    intro s s' _ huse
    cases huse
  | step h op henabled ih =>
    obtain ⟨hports, hfifo⟩ := ih fun e he => hnz e (mem_cons_of_mem _ he)
    exact ⟨hports.step op, fun s => (hfifo s).step hports henabled (hnz _ mem_cons_self)⟩
  | other h hsocks ih =>
    obtain ⟨hports, hfifo⟩ := ih hnz
    refine ⟨hports.binds (.inl hsocks), fun s => ?_⟩
    obtain ⟨ds, hkept, hret⟩ := hfifo s
    exact ⟨ds, by rw [hsocks, hkept], hret⟩

/-- A datagram from port 53 to port 5000. -/
def sampleDatagram (payload : List UInt8) : List UInt8 :=
  (UdpHdr.mk 53 5000 (UInt16.ofNat (8 + payload.length)) 0).bytes ++ payload

instance : NeZero udpSockets := ⟨by decide⟩

/-- A socket is opened and bound, two datagrams from 10.0.2.2 arrive and are received. -/
def sampleHistory (mac : Mac) : List UdpEntry × Stack :=
  [.opens, .bind 0 5000, .arrive 0x0A000202 (sampleDatagram [7, 8]),
    .arrive 0x0A000202 (sampleDatagram [9]), .recvfrom 0 1500, .recvfrom 0 1500].foldl
    (fun h op => (⟨h.2, op⟩ :: h.1, (h.2.udpDo op).2)) ([], .boot mac)

/-- Two datagrams are taken in the order they came. -/
theorem udp_fifo_received :
    PortsDistinct (sampleHistory fun _ => 0).2 ∧ Fifo 0 (sampleHistory fun _ => 0).1
      (sampleHistory fun _ => 0).2 ∧
      (taken 0 (sampleHistory fun _ => 0).1).map
      (fun a => (a.2.ret, a.2.data)) = [(2, [7, 8]), (1, [9])] := by
  have hrun : UdpRun (fun _ => 0) (sampleHistory fun _ => 0).1 (sampleHistory fun _ => 0).2 :=
    .step (.step (.step (.step (.step (.step .boot .opens trivial) (.bind 0 5000) trivial)
      (.arrive 0x0A000202 (sampleDatagram [7, 8])) trivial)
      (.arrive 0x0A000202 (sampleDatagram [9])) trivial)
      (.recvfrom 0 1500) ⟨by decide, by decide⟩) (.recvfrom 0 1500) ⟨by decide, by decide⟩
  have hport : ∀ payload ∈ [[7, 8], [9]], ∀ dport d,
      datagram 0x0A000202 (sampleDatagram payload) = some (dport, d) → dport ≠ 0 := by
    have hall : ∀ payload ∈ [[7, 8], [9]],
        (datagram 0x0A000202 (sampleDatagram payload)).map Prod.fst = some 5000 := by decide
    intro payload hmem dport d hd
    have hfst := hall payload hmem
    rw [hd] at hfst
    cases hfst
    decide
  have hnz : ∀ e ∈ (sampleHistory fun _ => 0).1, e.Nonzero := by
    intro e he srcIp data harr dport d hd
    simp only [sampleHistory, foldl_cons, foldl_nil, mem_cons, not_mem_nil, or_false] at he
    rcases he with rfl | rfl | rfl | rfl | rfl | rfl <;> cases harr
    · exact hport _ (by decide) dport d hd
    · exact hport _ (by decide) dport d hd
  obtain ⟨hports, hfifo⟩ := udp_fifo hrun hnz
  exact ⟨hports, hfifo 0, by decide⟩

end JuampiOs.Net
