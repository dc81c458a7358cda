import JuampiOs.Lib.Proc
import JuampiOs.Net.Model

/-!
# The code of the network stack

The functions of `net.c`, `udp.c` and `tcp.c` that transmit, wait or are called by those that
do, as programs. Transmitting can wait for an ARP reply, waiting runs the poll pump, and the
pump handles frames, which may transmit again: `net_poll` is a procedure that ends up calling
itself to any depth. Every loop of the source is a procedure as well.

The environment answers the questions of `Query`: what the clock reads, which frame the card
hands out next (any frame, or none), whether a transmission was confirmed and which call the
kernel makes next. The program logs what the statements about it speak of (`Event`); nothing
reads the log.

Left out: the start-up in `net_init` (the stack starts configured by `netConfig`), the text
conversions `net_aton` and `net_ntoa`, and `ip_send_bcast`, which only the DHCP client uses.
-/

namespace JuampiOs.Net

open Lib Lib.Wire TcpConn

/-! ## The language -/

abbrev Slot := Fin tcpConns
abbrev Sock := Fin udpSockets

/-- A call of the public interface. -/
inductive ApiCall where
  | poll
  | config (ip mask gatewayIp : UInt32)
  | ping (dstIp : UInt32) (timeoutMs : UInt32)
  | tcpConnect (dstIp : UInt32) (port : UInt16) (timeoutMs : UInt32)
  | tcpListen (port : UInt16)
  | tcpAccept (id : Int) (timeoutMs : UInt32)
  | tcpSend (id : Int) (data : List UInt8)
  | tcpRecv (id : Int) (cap timeoutMs : UInt32)
  | tcpClose (id : Int)
  | udpOpen
  | udpBind (s : Int) (port : UInt16)
  | udpSendto (s : Int) (dstIp : UInt32) (dport : UInt16) (data : List UInt8)
  | udpRecvfrom (s : Int) (timeoutMs : UInt32) (cap : UInt16)
  | udpClose (s : Int)
deriving DecidableEq

/-- What a call returns: its value (0 for `void`, 0 and 1 for `bool`), the bytes it wrote to
the caller's buffer and its other results. -/
structure Reply where
  ret : Int
  data : List UInt8 := []
  srcIp : UInt32 := 0
  srcPort : UInt16 := 0
  rttUs : UInt64 := 0

/-- What the log records. A `TcpConn` in an event is the connection just before it. -/
inductive Event where
  | called (a : ApiCall) (conns : Slot → TcpConn)
  | returned (a : ApiCall) (r : Reply)
  /-- the record was cleared and filled in; `conns` are the records before -/
  | opened (i : Slot) (c : TcpConn) (conns : Slot → TcpConn)
  /-- a SYN opened a listening connection -/
  | passive (i : Slot) (srcIp : UInt32) (seg : Segment)
  /-- a segment was handed to the connection `tcp_find` found -/
  | delivered (i : Slot) (srcIp : UInt32) (seg : Segment) (c : TcpConn)
  /-- `tcp_emit` was called -/
  | emit (i : Slot) (flags : UInt8) (len : Nat) (c : TcpConn)
  /-- and returned -/
  | emitted (i : Slot)
  /-- a segment was handed to `ip_send` -/
  | sent (i : Slot) (seg : List UInt8) (c : TcpConn)
  | gaveUp (i : Slot) (c : TcpConn)
  /-- the data of a segment went into the receive ring -/
  | stored (i : Slot) (seg : Segment) (c : TcpConn)
  /-- the FIN of a segment was taken -/
  | finSeen (i : Slot) (seg : Segment) (c : TcpConn)
  /-- bytes were copied out of the receive ring -/
  | received (i : Slot) (bytes : List UInt8)
  | released (i : Slot) (c : TcpConn)

/-- What the environment decides. -/
inductive Query where
  | ktimeMs
  | ktimeUs
  | ktimeNs
  | rxPoll
  | tx (frame : List UInt8)
  | nextCall

@[reducible] def Query.Answer : Query → Type
  | .ktimeMs => UInt64
  | .ktimeUs => UInt64
  | .ktimeNs => UInt64
  | .rxPoll => Option (List UInt8)
  | .tx _ => Bool
  | .nextCall => ApiCall

/-- How the wait of `net_tcp_recv` ended. -/
inductive RecvWait where
  | data | eof | timeout
deriving DecidableEq

/-- The poll pump, the loops of the source and the kernel that makes the calls. -/
inductive Proc where
  | netPoll
  | rxLoop
  | arpWait (ip : UInt32) (deadline : UInt64)
  | pingWait (deadline : UInt64)
  | connectWait (i : Slot) (deadline : UInt64)
  | acceptWait (i : Slot) (deadline : UInt64)
  | sendLoop (i : Slot) (data : List UInt8) (sent : Nat)
  | sendWait (i : Slot) (deadline : UInt64)
  | recvWait (i : Slot) (deadline : UInt64)
  | closeWait (i : Slot) (deadline : UInt64)
  | udpRecvWait (s : Sock) (deadline : UInt64)
  | kernel

@[reducible] def Proc.Result : Proc → Type
  | .netPoll => Unit
  | .rxLoop => Unit
  | .arpWait _ _ => Option Mac
  | .pingWait _ => Bool
  | .connectWait _ _ => Bool
  | .acceptWait _ _ => Bool
  | .sendLoop _ _ _ => Int
  | .sendWait _ _ => Bool
  | .recvWait _ _ => RecvWait
  | .closeWait _ _ => Unit
  | .udpRecvWait _ _ => Bool
  | .kernel => Unit

@[reducible] def lang : Lang where
  State := Stack
  Event := Event
  Query := Query
  Answer := Query.Answer
  Proc := Proc
  Result := Proc.Result

abbrev Code (α : Type) := lang.Code α
abbrev Point := lang.Point

def stack : Code Stack := Lang.get
def commit (n : Stack) (es : List Event) : Code Unit := Lang.commit (L := lang) n es
def ktimeMs : Code UInt64 := Lang.ask (L := lang) .ktimeMs
def ktimeUs : Code UInt64 := Lang.ask (L := lang) .ktimeUs
def ktimeNs : Code UInt64 := Lang.ask (L := lang) .ktimeNs
def rxPoll : Code (Option (List UInt8)) := Lang.ask (L := lang) .rxPoll
def tx (frame : List UInt8) : Code Bool := Lang.ask (L := lang) (.tx frame)
def proc (p : Proc) : Code p.Result := Lang.call (L := lang) p

def conn (i : Slot) : Code TcpConn := do
  let n ← stack
  pure (n.conns i)

/-- Replace a connection by `f` of it and log some events about it. -/
def update (i : Slot) (f : TcpConn → TcpConn) (es : TcpConn → List Event) : Code Unit := do
  let n ← stack
  commit (n.setConn i (f (n.conns i))) (es (n.conns i))

/-! ## Output: Ethernet, ARP and IPv4 -/

/-- `eth_send` -/
def ethSend (dst : Mac) (ethertype : UInt16) (l3 : List UInt8) : Code Bool := do
  let n ← stack
  tx ((EthHdr.mk dst n.myMac ethertype).bytes ++ l3)

/-- `arp_send_request` -/
def arpSendRequest (targetIp : UInt32) : Code Unit := do
  let n ← stack
  let _ ← ethSend bcastMac ethArp
    (ArpPkt.mk 1 ethIp 6 4 1 n.myMac n.myIp (fun _ => 0) targetIp).bytes

/-- `arp_resolve` with its timeout of a second. -/
def arpResolve (ip : UInt32) : Code (Option Mac) := do
  let n ← stack
  match n.arpLookup ip with
  | some m => pure (some m)
  | none => do
    arpSendRequest ip
    let now ← ktimeMs
    proc (.arpWait ip (now + 1000))

/-- The loop of `arp_resolve`. -/
def arpWait (ip : UInt32) (deadline : UInt64) : Code (Option Mac) := do
  let now ← ktimeMs
  if now < deadline then do
    proc .netPoll
    let n ← stack
    match n.arpLookup ip with
    | some m => pure (some m)
    | none => proc (.arpWait ip deadline)
  else pure none

/-- `ip_emit` -/
def ipEmit (dmac : Mac) (srcIp dstIp : UInt32) (proto : UInt8) (l4 : List UInt8) : Code Bool := do
  let n ← stack
  commit { n with ipIdCtr := n.ipIdCtr + 1 } []
  let ip : IpHdr :=
    { verIhl := 0x45, tos := 0, totLen := UInt16.ofNat (ipHdrSize + l4.length), id := n.ipIdCtr
      frag := 0x4000, ttl := 64, proto := proto, csum := 0, src := srcIp, dst := dstIp }
  ethSend dmac ethIp ({ ip with csum := inetCsum ip.bytes }.bytes ++ l4)

/-- `ip_send`. The payload is given as a function of the state because the code passes a
pointer, which it follows only once the next hop is known. -/
def ipSend (dstIp : UInt32) (proto : UInt8) (l4 : Stack → List UInt8) : Code Bool := do
  let n ← stack
  let dmac ← arpResolve (n.nexthop dstIp)
  match dmac with
  | none => pure false
  | some dmac => do
    let n ← stack
    ipEmit dmac n.myIp dstIp proto (l4 n)

/-! ## TCP output -/

/-- `tcp_emit` -/
def tcpEmit (i : Slot) (flags : UInt8) (data : List UInt8) : Code Bool := do
  let n ← stack
  let c := n.conns i
  let data := data.take tcpMss
  let seg := c.segment n.myIp flags data
  let now ← ktimeMs
  commit (n.setConn i (c.record flags data.length seg now))
    [.sent i seg c, .emit i flags data.length c]
  let ok ← ipSend c.peerIp ipProtoTcp fun _ => seg
  update i id fun _ => [.emitted i]
  pure ok

/-- `tcp_ack` -/
def tcpAck (i : Slot) : Code Unit := do
  let n ← stack
  let c := n.conns i
  let seg := c.segment n.myIp tcpAckFlag []
  update i id fun c => [.sent i seg c]
  let _ ← ipSend c.peerIp ipProtoTcp fun _ => seg

/-! ## TCP input -/

/-- Lines 231 to 240 of `tcp_input`: accept in-order data, and acknowledge any data. -/
def tcpData (i : Slot) (seg : Segment) : Code Unit := do
  let n ← stack
  let c := n.conns i
  if h : c.InOrder seg then do
    commit (n.setConn i (c.accept seg h)) [.stored i seg c]
    tcpAck i
  else if seg.payload ≠ [] then tcpAck i
  else pure ()

/-- Lines 242 to 249: accept and acknowledge an in-order FIN. -/
def tcpFinSeg (i : Slot) (seg : Segment) : Code Unit := do
  let c ← conn i
  if c.FinNext seg then do
    update i acceptFin fun c => [.finSeen i seg c]
    tcpAck i
    let c ← conn i
    if c.state = .finWait then update i finish fun _ => [] else pure ()
  else pure ()

/-- Lines 250 to 252. -/
def tcpClosed (i : Slot) : Code Unit := do
  let c ← conn i
  if c.state = .finWait ∧ c.retxLen = 0 ∧ c.peerFin then update i finish fun _ => []
  else pure ()

/-- Lines 202 to 252: a segment for connection `i`. -/
def tcpSegment (i : Slot) (srcIp : UInt32) (seg : Segment) : Code Unit :=
  if seg.isRst then update i abort fun c => [.delivered i srcIp seg c]
  else do
    update i (ackUpdate · seg) fun c => [.delivered i srcIp seg c]
    let c ← conn i
    if c.state = .synSent then
      if seg.isSyn && seg.isAck then do
        update i (synAck · seg) fun _ => []
        tcpAck i
      else pure ()
    else do
      tcpData i seg
      tcpFinSeg i seg
      tcpClosed i

/-- `tcp_input` -/
def tcpInput (srcIp : UInt32) (data : List UInt8) : Code Unit :=
  match Segment.parse data with
  | none => pure ()
  | some seg => do
    let n ← stack
    match n.tcpFind srcIp seg.sport seg.dport with
    | some i => tcpSegment i srcIp seg
    | none =>
      if seg.isSyn then
        match n.listener seg.dport with
        | some i => do
          let ns ← ktimeNs
          update i (passiveOpen · srcIp seg ns.toUInt32) fun _ => [.passive i srcIp seg]
          let _ ← tcpEmit i (tcpSyn ||| tcpAckFlag) []
        | none => pure ()
      else pure ()

/-- The body of the loop of `tcp_tick`. -/
def tcpTickConn (now : UInt64) (i : Slot) : Code Unit := do
  let c ← conn i
  if !c.inUse || c.retxLen = 0 then pure ()
  else if now - c.retxAtMs < tcpRtoMs then pure ()
  else if tcpMaxRetx ≤ c.retxTries then update i abort fun c => [.gaveUp i c]
  else do
    update i (resend · now) fun c => [.sent i (c.retx.take c.retxLen) c]
    let _ ← ipSend c.peerIp ipProtoTcp fun n => (n.conns i).retx.take c.retxLen

/-- `tcp_tick` -/
def tcpTick : Code Unit := do
  let now ← ktimeMs
  (List.finRange tcpConns).forM (tcpTickConn now)

/-! ## Input: UDP, ICMP, IPv4, ARP and Ethernet -/

/-- `udp_input` -/
def udpInput (srcIp : UInt32) (data : List UInt8) : Code Unit :=
  if data.length < udpHdrSize then pure ()
  else
    let u := UdpHdr.parse data
    if u.len.toNat < udpHdrSize ∨ data.length < u.len.toNat then pure ()
    else do
      let n ← stack
      match n.boundSock u.dport with
      | none => pure ()
      | some s =>
        let k := n.socks s
        let payload := (data.drop udpHdrSize).take (min (u.len.toNat - udpHdrSize) udpMsgMax)
        let d : UdpDgram := ⟨srcIp, u.sport, payload.length, payload⟩
        if h : k.q.len + [d].length ≤ udpQueue then
          commit (n.setSock s { k with q := k.q.push [d] h }) []
        else pure ()

def pingId : UInt16 := 0x4A50

/-- `icmp_input` -/
def icmpInput (srcIp : UInt32) (data : List UInt8) : Code Unit :=
  if data.length < icmpHdrSize then pure ()
  else
    let ic := IcmpHdr.parse data
    if ic.type = icmpEchoRequest then
      if 1500 < data.length then pure ()
      else do
        let body := data.drop icmpHdrSize
        let r : IcmpHdr := { ic with type := icmpEchoReply, csum := 0 }
        let rep := { r with csum := inetCsum (r.bytes ++ body) }.bytes ++ body
        let _ ← ipSend srcIp ipProtoIcmp fun _ => rep
    else if ic.type = icmpEchoReply then do
      let n ← stack
      if ic.id = pingId ∧ ic.seq = n.pingSeq then do
        let now ← ktimeUs
        commit { n with pingRttUs := now - n.pingSendUs, pingGot := true } []
      else pure ()
    else pure ()

/-- The protocols `ip_input` knows. -/
inductive Layer4 where
  | icmp | udp | tcp
deriving DecidableEq

abbrev Handlers := Layer4 → UInt32 → List UInt8 → Code Unit

/-- The handlers of the code. -/
def Layer4.input : Handlers
  | .icmp => icmpInput
  | .udp => udpInput
  | .tcp => tcpInput

/-- `ip_input`, over any handlers. -/
def ipInputWith (h : Handlers) (data : List UInt8) : Code Unit :=
  if data.length < ipHdrSize then pure ()
  else
    let ip := IpHdr.parse data
    let ihl := (ip.verIhl &&& 0x0F).toNat * 4
    let tot := ip.totLen.toNat
    if ip.verIhl >>> 4 ≠ 4 then pure ()
    else if ihl < ipHdrSize ∨ data.length < ihl then pure ()
    else do
      let n ← stack
      if ip.dst ≠ n.myIp ∧ ip.dst ≠ 0xFFFFFFFF then pure ()
      else if data.length < tot ∨ tot < ihl then pure ()
      else
        let l4 := (data.drop ihl).take (tot - ihl)
        if ip.proto = ipProtoIcmp then h .icmp ip.src l4
        else if ip.proto = ipProtoUdp then h .udp ip.src l4
        else if ip.proto = ipProtoTcp then h .tcp ip.src l4
        else pure ()

/-- `arp_input` -/
def arpInput (data : List UInt8) : Code Unit :=
  if data.length < arpPktSize then pure ()
  else
    let a := ArpPkt.parse data
    if a.ptype ≠ ethIp ∨ a.plen ≠ 4 then pure ()
    else do
      let n ← stack
      commit (n.arpInsert a.spa a.sha) []
      if a.oper = 1 ∧ a.tpa = n.myIp then do
        let _ ← ethSend a.sha ethArp (ArpPkt.mk 1 ethIp 6 4 2 n.myMac n.myIp a.sha a.spa).bytes
      else pure ()

/-- `ether_input`, over any handlers. -/
def etherInputWith (h : Handlers) (data : List UInt8) : Code Unit :=
  if data.length < ethHdrSize then pure ()
  else do
    let eth := EthHdr.parse data
    let n ← stack
    if !macEq eth.dst n.myMac && !macEq eth.dst bcastMac then pure ()
    else
      let payload := data.drop ethHdrSize
      if eth.type = ethArp then arpInput payload
      else if eth.type = ethIp then ipInputWith h payload
      else pure ()

/-- `ether_input` -/
def etherInput (data : List UInt8) : Code Unit := etherInputWith Layer4.input data

/-- The loop of `net_poll` over the frames of the card. -/
def rxLoop : Code Unit := do
  let f ← rxPoll
  match f with
  | none => pure ()
  | some f => do
    etherInput f
    proc .rxLoop

/-- `net_poll` -/
def netPoll : Code Unit := do
  let n ← stack
  if n.ready then do
    proc .rxLoop
    tcpTick
  else pure ()

/-! ## The calls: ICMP and configuration -/

/-- `net_config` -/
def netConfig (ip mask gatewayIp : UInt32) : Code Unit := do
  let n ← stack
  commit { n with myIp := ip, myMask := mask, myGw := gatewayIp } []

/-- The wait of `net_ping`: whether the reply came. -/
def pingWait (deadline : UInt64) : Code Bool := do
  let n ← stack
  if n.pingGot then pure true
  else do
    proc .netPoll
    let now ← ktimeMs
    if deadline ≤ now then pure false else proc (.pingWait deadline)

/-- `net_ping` -/
def netPing (dstIp : UInt32) (timeoutMs : UInt32) : Code Reply := do
  let n ← stack
  if !n.ready then pure ⟨0, [], 0, 0, 0⟩
  else do
    let sendUs ← ktimeUs
    commit { n with pingSeq := n.pingSeq + 1, pingGot := false, pingSendUs := sendUs } []
    let body := (List.range 32).map UInt8.ofNat
    let ic : IcmpHdr := ⟨icmpEchoRequest, 0, 0, pingId, n.pingSeq + 1⟩
    let l4 := { ic with csum := inetCsum (ic.bytes ++ body) }.bytes ++ body
    let sent ← ipSend dstIp ipProtoIcmp fun _ => l4
    if !sent then pure ⟨0, [], 0, 0, 0⟩
    else do
      let now ← ktimeMs
      let got ← proc (.pingWait (now + timeoutMs.toUInt64))
      if got then do
        let n ← stack
        pure ⟨1, [], 0, 0, n.pingRttUs⟩
      else pure ⟨0, [], 0, 0, 0⟩

/-! ## The calls: TCP -/

/-- The record of a handle: `id < 0 || id >= TCP_CONNS || !tcp_conns[id].in_use` fails. -/
def slotOf (id : Int) : Option Slot :=
  if h : 0 ≤ id ∧ id.toNat < tcpConns then some ⟨id.toNat, h.2⟩ else none

/-- A loop that waits while `waits` holds of a record: false when the record is done by then, or the
time is up. -/
def waitWhile (i : Slot) (waits : TcpConn → Prop) [DecidablePred waits] (deadline : UInt64)
    (again : Code Bool) : Code Bool := do
  let c ← conn i
  if waits c then do
    proc .netPoll
    let c ← conn i
    if c.state = .done then pure false
    else do
      let now ← ktimeMs
      if deadline ≤ now then pure false else again
  else pure true

/-- The loop of `net_tcp_connect`. -/
def connectWait (i : Slot) (deadline : UInt64) : Code Bool :=
  waitWhile i (·.state = .synSent) deadline (proc (.connectWait i deadline))

/-- `net_tcp_connect` -/
def netTcpConnect (dstIp : UInt32) (port : UInt16) (timeoutMs : UInt32) : Code Int := do
  let n ← stack
  if !n.ready then pure (-1)
  else
    match n.freeConn with
    | none => pure (-1)
    | some i => do
      let ns ← ktimeNs
      let c := connecting dstIp port n.nextEphemeral.1 ns.toUInt32
      commit (n.nextEphemeral.2.setConn i c) [.opened i c n.conns]
      let _ ← tcpEmit i tcpSyn []
      let now ← ktimeMs
      let ok ← proc (.connectWait i (now + timeoutMs.toUInt64))
      if ok then pure (i.val : Int)
      else do
        update i release fun c => [.released i c]
        pure (-1)

/-- `net_tcp_listen` -/
def netTcpListen (port : UInt16) : Code Int := do
  let n ← stack
  if !n.ready then pure (-1)
  else
    match n.freeConn with
    | none => pure (-1)
    | some i => do
      commit (n.setConn i (.listening port)) [.opened i (.listening port) n.conns]
      pure (i.val : Int)

/-- The loop of `net_tcp_accept`. -/
def acceptWait (i : Slot) (deadline : UInt64) : Code Bool :=
  waitWhile i (·.state ≠ .established) deadline (proc (.acceptWait i deadline))

/-- `net_tcp_accept` -/
def netTcpAccept (id : Int) (timeoutMs : UInt32) : Code Int := do
  let n ← stack
  match slotOf id with
  | none => pure (-1)
  | some i =>
    if !(n.conns i).inUse then pure (-1)
    else do
      let now ← ktimeMs
      let ok ← proc (.acceptWait i (now + timeoutMs.toUInt64))
      if ok then pure id else pure (-1)

/-- `(int)sent` for a `uint32_t`. -/
def cInt (sent : Nat) : Int := Int.bmod sent 4294967296

/-- The inner loop of `net_tcp_send`: true when the segment is no longer outstanding. -/
def sendWait (i : Slot) (deadline : UInt64) : Code Bool :=
  waitWhile i (·.retxLen ≠ 0) deadline (proc (.sendWait i deadline))

/-- The loop of `net_tcp_send` from `sent` on. -/
def sendLoop (i : Slot) (data : List UInt8) (sent : Nat) : Code Int :=
  if sent < data.length then do
    let c ← conn i
    if c.state ≠ .established then pure (if sent ≠ 0 then cInt sent else -1)
    else do
      let chunk := min (data.length - sent) tcpMss
      let _ ← tcpEmit i (tcpAckFlag ||| tcpPsh) ((data.drop sent).take chunk)
      let now ← ktimeMs
      let acked ← proc (.sendWait i (now + tcpRtoMs * UInt64.ofNat (tcpMaxRetx + 2)))
      if acked then proc (.sendLoop i data (sent + chunk))
      else pure (if sent ≠ 0 then cInt sent else -1)
  else pure (cInt sent)

/-- `net_tcp_send` -/
def netTcpSend (id : Int) (data : List UInt8) : Code Int := do
  let n ← stack
  match slotOf id with
  | none => pure (-1)
  | some i => if !(n.conns i).inUse then pure (-1) else proc (.sendLoop i data 0)

/-- The loop of `net_tcp_recv`. -/
def recvWait (i : Slot) (deadline : UInt64) : Code RecvWait := do
  let c ← conn i
  if c.rx.len = 0 then
    if c.peerFin ∨ c.state = .done then pure .eof
    else do
      proc .netPoll
      let now ← ktimeMs
      if deadline ≤ now then pure .timeout else proc (.recvWait i deadline)
  else pure .data

/-- `net_tcp_recv` -/
def netTcpRecv (id : Int) (cap timeoutMs : UInt32) : Code Reply := do
  let n ← stack
  match slotOf id with
  | none => pure ⟨-1, [], 0, 0, 0⟩
  | some i =>
    if !(n.conns i).inUse then pure ⟨-1, [], 0, 0, 0⟩
    else do
      let now ← ktimeMs
      let w ← proc (.recvWait i (now + timeoutMs.toUInt64))
      match w with
      | .eof => pure ⟨0, [], 0, 0, 0⟩
      | .timeout => pure ⟨-1, [], 0, 0, 0⟩
      | .data => do
        let c ← conn i
        let k := min c.rx.len cap.toNat
        update i (drain · k) fun c => [.received i (c.rx.peek k)]
        pure ⟨k, c.rx.peek k, 0, 0, 0⟩

/-- The loop of `net_tcp_close`. -/
def closeWait (i : Slot) (deadline : UInt64) : Code Unit := do
  let c ← conn i
  if c.state = .finWait then do
    let now ← ktimeMs
    if now < deadline then do
      proc .netPoll
      proc (.closeWait i deadline)
    else pure ()
  else pure ()

/-- `net_tcp_close` -/
def netTcpClose (id : Int) : Code Unit := do
  let n ← stack
  match slotOf id with
  | none => pure ()
  | some i =>
    if !(n.conns i).inUse then pure ()
    else do
      if (n.conns i).state = .established then do
        let _ ← tcpEmit i (tcpFin ||| tcpAckFlag) []
        update i waitFin fun _ => []
        let now ← ktimeMs
        proc (.closeWait i (now + 1000))
      else pure ()
      update i release fun c => [.released i c]

/-! ## The calls: UDP -/

def sockOf (s : Int) : Option Sock :=
  if h : 0 ≤ s ∧ s.toNat < udpSockets then some ⟨s.toNat, h.2⟩ else none

/-- `net_udp_open` -/
def netUdpOpen : Code Int := do
  let n ← stack
  match n.freeSock with
  | none => pure (-1)
  | some s => do
    let q := (n.socks s).q
    commit (n.setSock s ⟨true, 0, ⟨q.cell, 0, 0, Nat.zero_le _⟩⟩) []
    pure (s.val : Int)

/-- `net_udp_bind` -/
def netUdpBind (s : Int) (port : UInt16) : Code Bool := do
  let n ← stack
  match sockOf s with
  | none => pure false
  | some s => do
    commit (n.udpBind s port).2 []
    pure (n.udpBind s port).1

/-- `udp_output` -/
def udpOutput (sport : UInt16) (dstIp : UInt32) (dport : UInt16) (data : List UInt8) :
    Code Bool := do
  let n ← stack
  let data := data.take udpMsgMax
  let u : UdpHdr := ⟨sport, dport, UInt16.ofNat (udpHdrSize + data.length), 0⟩
  let seg := { u with csum := udpChecksum n.myIp dstIp (u.bytes ++ data) }.bytes ++ data
  ipSend dstIp ipProtoUdp fun _ => seg

/-- `net_udp_sendto` -/
def netUdpSendto (s : Int) (dstIp : UInt32) (dport : UInt16) (data : List UInt8) : Code Bool := do
  let n ← stack
  match sockOf s with
  | none => pure false
  | some k =>
    if !(n.socks k).inUse || !n.ready then pure false
    else do
      let bound ← if (n.socks k).localPort = 0 then netUdpBind s 0 else pure true
      if bound then do
        let n ← stack
        udpOutput (n.socks k).localPort dstIp dport data
      else pure false

/-- The loop of `net_udp_recvfrom`: whether a datagram is queued. -/
def udpRecvWait (s : Sock) (deadline : UInt64) : Code Bool := do
  let n ← stack
  if (n.socks s).q.len = 0 then do
    proc .netPoll
    let now ← ktimeMs
    if deadline ≤ now then pure false else proc (.udpRecvWait s deadline)
  else pure true

/-- `net_udp_recvfrom` -/
def netUdpRecvfrom (s : Int) (timeoutMs : UInt32) (cap : UInt16) : Code Reply := do
  let n ← stack
  match sockOf s with
  | none => pure ⟨-1, [], 0, 0, 0⟩
  | some s =>
    if !(n.socks s).inUse then pure ⟨-1, [], 0, 0, 0⟩
    else do
      let now ← ktimeMs
      let got ← proc (.udpRecvWait s (now + timeoutMs.toUInt64))
      if got then do
        let n ← stack
        let k := n.socks s
        let d := k.q.cell (k.q.head % udpQueue)
        commit (n.setSock s { k with q := k.q.pop 1 }) []
        pure ⟨d.len, d.data.take cap.toNat, d.srcIp, d.srcPort, 0⟩
      else pure ⟨-1, [], 0, 0, 0⟩

/-- `net_udp_close` -/
def netUdpClose (s : Int) : Code Unit := do
  let n ← stack
  match sockOf s with
  | none => pure ()
  | some s => commit (n.setSock s { n.socks s with inUse := false }) []

/-! ## The kernel -/

def perform : ApiCall → Code Reply
  | .poll => do proc .netPoll; pure ⟨0, [], 0, 0, 0⟩
  | .config ip mask gw => do netConfig ip mask gw; pure ⟨0, [], 0, 0, 0⟩
  | .ping dst timeout => netPing dst timeout
  | .tcpConnect dst port timeout => do
    let r ← netTcpConnect dst port timeout; pure ⟨r, [], 0, 0, 0⟩
  | .tcpListen port => do let r ← netTcpListen port; pure ⟨r, [], 0, 0, 0⟩
  | .tcpAccept id timeout => do let r ← netTcpAccept id timeout; pure ⟨r, [], 0, 0, 0⟩
  | .tcpSend id data => do let r ← netTcpSend id data; pure ⟨r, [], 0, 0, 0⟩
  | .tcpRecv id cap timeout => netTcpRecv id cap timeout
  | .tcpClose id => do netTcpClose id; pure ⟨0, [], 0, 0, 0⟩
  | .udpOpen => do let r ← netUdpOpen; pure ⟨r, [], 0, 0, 0⟩
  | .udpBind s port => do let r ← netUdpBind s port; pure ⟨r.toNat, [], 0, 0, 0⟩
  | .udpSendto s dst dport data => do
    let r ← netUdpSendto s dst dport data; pure ⟨r.toNat, [], 0, 0, 0⟩
  | .udpRecvfrom s timeout cap => netUdpRecvfrom s timeout cap
  | .udpClose s => do netUdpClose s; pure ⟨0, [], 0, 0, 0⟩

/-- The one thread that uses the stack: it makes one call after the other. -/
def kernel : Code Unit := do
  let a ← Lang.ask (L := lang) .nextCall
  let n ← stack
  commit n [.called a n.conns]
  let r ← perform a
  let n ← stack
  commit n [.returned a r]
  proc .kernel

def body : lang.Bodies
  | .netPoll => netPoll
  | .rxLoop => rxLoop
  | .arpWait ip deadline => arpWait ip deadline
  | .pingWait deadline => pingWait deadline
  | .connectWait i deadline => connectWait i deadline
  | .acceptWait i deadline => acceptWait i deadline
  | .sendLoop i data sent => sendLoop i data sent
  | .sendWait i deadline => sendWait i deadline
  | .recvWait i deadline => recvWait i deadline
  | .closeWait i deadline => closeWait i deadline
  | .udpRecvWait s deadline => udpRecvWait s deadline
  | .kernel => kernel

end JuampiOs.Net
