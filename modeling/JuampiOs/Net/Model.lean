import JuampiOs.Lib.Ring
import JuampiOs.Net.Format

/-!
# The state of the network stack

The static variables of `net.c`, `udp.c` and `tcp.c` (`Stack`), the connection record of
`tcp.c` (`TcpConn`) and the updates the code makes to a connection between two points at which
it may be interrupted by the poll pump. The functions that transmit or wait are in
`JuampiOs.Net.Code`; everything here is a function of the state.

Sequence numbers, ports and addresses have the widths of the source. The receive ring carries
its bound in its type, `retx_len` and `retx_tries` are natural numbers (they stay below 557
and 7).
-/

namespace JuampiOs.Net

open Lib Lib.Wire Function List

/-! ## Connections -/

abbrev tcpConns : Nat := 2
def tcpMss : Nat := 536
def tcpRxbuf : Nat := 8192
def tcpRtoMs : UInt64 := 400
def tcpMaxRetx : Nat := 6

/-- `enum tcp_state` -/
inductive TcpState where
  | closed | listen | synSent | synRcvd | established | finWait | done
deriving DecidableEq, Repr

/-- `struct tcp_conn` -/
structure TcpConn where
  inUse : Bool
  state : TcpState
  peerIp : UInt32
  localPort : UInt16
  peerPort : UInt16
  /-- oldest unacknowledged sequence number -/
  sndUna : UInt32
  /-- next sequence number to send -/
  sndNxt : UInt32
  /-- next in-order sequence number expected -/
  rcvNxt : UInt32
  peerFin : Bool
  /-- `rx`, `rx_head` and `rx_len` -/
  rx : Ring tcpRxbuf UInt8
  /-- the outstanding segment; nothing is outstanding when `retxLen` is 0 -/
  retx : List UInt8
  retxLen : Nat
  retxSeq : UInt32
  retxAtMs : UInt64
  retxTries : Nat

/-- `seq_lt` -/
def seqLt (a b : UInt32) : Bool := (a - b).toInt32 < 0

/-- What `tcp_input` reads from a segment. -/
structure Segment where
  sport : UInt16
  dport : UInt16
  seq : UInt32
  ack : UInt32
  flags : UInt8
  payload : List UInt8
deriving DecidableEq

namespace Segment

/-- The length checks at the head of `tcp_input` and the fields it reads. -/
def parse (data : List UInt8) : Option Segment :=
  if data.length < tcpHdrSize then none
  else
    let t := TcpHdr.parse data
    let hlen := (t.off >>> 4).toNat * 4
    if hlen < tcpHdrSize ∨ data.length < hlen then none
    else some ⟨t.sport, t.dport, t.seq, t.ack, t.flags, data.drop hlen⟩

def isFin (s : Segment) : Bool := s.flags &&& tcpFin != 0
def isSyn (s : Segment) : Bool := s.flags &&& tcpSyn != 0
def isRst (s : Segment) : Bool := s.flags &&& tcpRst != 0
def isAck (s : Segment) : Bool := s.flags &&& tcpAckFlag != 0

/-- `plen`, as it enters sequence arithmetic -/
def plen (s : Segment) : UInt32 := UInt32.ofNat s.payload.length

end Segment

namespace TcpConn

/-- `memset(c, 0, sizeof(*c))` -/
def zero : TcpConn where
  inUse := false
  state := .closed
  peerIp := 0
  localPort := 0
  peerPort := 0
  sndUna := 0
  sndNxt := 0
  rcvNxt := 0
  peerFin := false
  rx := Ring.empty tcpRxbuf 0
  retx := []
  retxLen := 0
  retxSeq := 0
  retxAtMs := 0
  retxTries := 0

/-! ### Segments a connection sends -/

/-- The segment that `tcp_emit` and `tcp_ack` build. -/
def segment (c : TcpConn) (myIp : UInt32) (flags : UInt8) (data : List UInt8) : List UInt8 :=
  let t : TcpHdr :=
    { sport := c.localPort, dport := c.peerPort, seq := c.sndNxt, ack := c.rcvNxt
      off := UInt8.ofNat (tcpHdrSize / 4) <<< 4, flags := flags
      window := UInt16.ofNat (tcpRxbuf - c.rx.len), csum := 0, urg := 0 }
  { t with csum := tcpChecksum myIp c.peerIp (t.bytes ++ data) }.bytes ++ data

/-- The sequence numbers a segment occupies: its data, and one for a SYN or FIN. -/
def consumed (flags : UInt8) (len : Nat) : Nat :=
  if flags &&& (tcpSyn ||| tcpFin) != 0 then len + 1 else len

/-- Lines 123 to 130 of `tcp_emit`: a segment that occupies sequence numbers becomes the
outstanding one. -/
def record (c : TcpConn) (flags : UInt8) (len : Nat) (seg : List UInt8) (now : UInt64) : TcpConn :=
  if consumed flags len ≠ 0 then
    let nxt := c.sndNxt + UInt32.ofNat (consumed flags len)
    { c with retx := seg, retxLen := seg.length, retxSeq := nxt, retxAtMs := now, retxTries := 0
             sndNxt := nxt }
  else c

/-! ### What `tcp_input` does to a connection -/

/-- A SYN to a listening connection, lines 189 to 193; `ns` is the clock reading. -/
def passiveOpen (c : TcpConn) (srcIp : UInt32) (seg : Segment) (ns : UInt32) : TcpConn :=
  { c with peerIp := srcIp, peerPort := seg.sport, rcvNxt := seg.seq + 1, sndUna := ns
           sndNxt := ns, state := .synRcvd }

/-- The connection is finished at once: a RST, or the retransmissions have run out. -/
def abort (c : TcpConn) : TcpConn := { c with state := .done, retxLen := 0 }

variable (c : TcpConn) (seg : Segment)

/-- The acknowledgement of `seg` covers the outstanding segment (line 209). -/
def releases : Bool :=
  seg.isAck && c.retxLen != 0 && !seqLt seg.ack c.retxSeq

def clearAcked : TcpConn :=
  if c.releases seg then { c with retxLen := 0 } else c

def advanceUna : TcpConn :=
  if seg.isAck && seqLt c.sndUna seg.ack then { c with sndUna := seg.ack } else c

def completePassive : TcpConn :=
  if c.state = .synRcvd ∧ seg.isAck ∧ c.retxLen = 0 then { c with state := .established } else c

/-- Lines 208 to 219, the acknowledgement of a segment. -/
def ackUpdate : TcpConn :=
  ((c.clearAcked seg).advanceUna seg).completePassive seg

/-- A SYN-ACK in SYN_SENT, lines 223 and 224. -/
def synAck : TcpConn :=
  { c with rcvNxt := seg.seq + 1, state := .established }

/-- In-order data with room in the ring (the condition of line 231). -/
def InOrder : Prop :=
  seg.payload ≠ [] ∧ seg.seq = c.rcvNxt ∧ c.rx.len + seg.payload.length ≤ tcpRxbuf

instance : Decidable (c.InOrder seg) := by
  unfold InOrder; infer_instance

/-- Lines 232 to 236. -/
def accept (h : c.InOrder seg) : TcpConn :=
  { c with rx := c.rx.push seg.payload h.2.2, rcvNxt := c.rcvNxt + seg.plen }

/-- The FIN of `seg` is the next thing expected (the condition of line 242). -/
def FinNext : Prop :=
  seg.isFin ∧ seg.seq + seg.plen = c.rcvNxt

instance : Decidable (c.FinNext seg) := by
  unfold FinNext; infer_instance

/-- Lines 243 and 244. -/
def acceptFin : TcpConn := { c with rcvNxt := c.rcvNxt + 1, peerFin := true }

def finish : TcpConn := { c with state := .done }

/-- A retransmission in `tcp_tick`. -/
def resend (now : UInt64) : TcpConn :=
  { c with retxTries := c.retxTries + 1, retxAtMs := now }

/-! ### What the calls of the public interface do to a connection -/

def waitFin : TcpConn := { c with state := .finWait }

def release : TcpConn := { c with inUse := false }

/-- `net_tcp_recv` has copied `n` bytes out. -/
def drain (n : Nat) : TcpConn := { c with rx := c.rx.pop n }

/-- The record `net_tcp_connect` fills in; `iss` is its clock reading. -/
def connecting (dstIp : UInt32) (port localPort : UInt16) (iss : UInt32) : TcpConn :=
  { zero with inUse := true, state := .synSent, peerIp := dstIp, peerPort := port
              localPort := localPort, sndUna := iss, sndNxt := iss }

/-- The record `net_tcp_listen` fills in. -/
def listening (port : UInt16) : TcpConn :=
  { zero with inUse := true, state := .listen, localPort := port }

end TcpConn

/-! ### The fields after an update -/

namespace TcpConn

variable (c : TcpConn) (seg : Segment)

@[simp] theorem ackUpdate_retxLen :
    (c.ackUpdate seg).retxLen = if c.releases seg then 0 else c.retxLen := by
  simp only [ackUpdate, completePassive, advanceUna, clearAcked]
  split <;> split <;> split <;> rfl

@[simp] theorem ackUpdate_sndUna :
    (c.ackUpdate seg).sndUna =
      if seg.isAck && seqLt c.sndUna seg.ack then seg.ack else c.sndUna := by
  simp only [ackUpdate, completePassive, advanceUna, clearAcked]
  by_cases h : c.releases seg <;> simp only [h, if_true, Bool.false_eq_true, if_false] <;>
    split <;> split <;> simp_all

theorem ackUpdate_state :
    (c.ackUpdate seg).state =
      if c.state = .synRcvd ∧ seg.isAck = true ∧ (c.ackUpdate seg).retxLen = 0 then .established
      else c.state := by
  simp only [ackUpdate, completePassive, advanceUna, clearAcked]
  by_cases h : c.releases seg <;> simp only [h, if_true, Bool.false_eq_true, if_false] <;>
    split <;> split <;> simp_all

/-- The acknowledgement of a segment changes nothing but `retx_len`, `snd_una` and the state. -/
theorem ackUpdate_eq :
    c.ackUpdate seg = { c with
      retxLen := (c.ackUpdate seg).retxLen
      sndUna := (c.ackUpdate seg).sndUna
      state := (c.ackUpdate seg).state } := by
  simp only [ackUpdate, completePassive, advanceUna, clearAcked]
  split <;> split <;> split <;> rfl

@[simp] theorem ackUpdate_inUse : (c.ackUpdate seg).inUse = c.inUse := by rw [ackUpdate_eq]
@[simp] theorem ackUpdate_sndNxt : (c.ackUpdate seg).sndNxt = c.sndNxt := by rw [ackUpdate_eq]
@[simp] theorem ackUpdate_peerFin : (c.ackUpdate seg).peerFin = c.peerFin := by rw [ackUpdate_eq]
@[simp] theorem ackUpdate_retxSeq : (c.ackUpdate seg).retxSeq = c.retxSeq := by rw [ackUpdate_eq]

@[simp] theorem ackUpdate_kept : let c' := c.ackUpdate seg
    c'.peerIp = c.peerIp ∧ c'.peerPort = c.peerPort ∧ c'.localPort = c.localPort ∧
      c'.rcvNxt = c.rcvNxt ∧ c'.rx = c.rx ∧ c'.retx = c.retx := by
  rw [ackUpdate_eq]
  simp

/-- The acknowledgement of a segment only ever moves a connection from SYN_RCVD to
ESTABLISHED. -/
theorem ackUpdate_state_eq {st : TcpState} (h : st ≠ .established) :
    (c.ackUpdate seg).state = st → c.state = st := by
  rw [ackUpdate_state]
  split
  · exact fun heq => absurd heq.symm h
  · exact id

theorem ackUpdate_state_of_ne (h : c.state ≠ .synRcvd) : (c.ackUpdate seg).state = c.state := by
  rw [ackUpdate_state, if_neg fun hs => h hs.1]

@[simp] theorem abort_state : c.abort.state = .done := rfl
@[simp] theorem synAck_state : (c.synAck seg).state = .established := rfl
@[simp] theorem finish_state : c.finish.state = .done := rfl
@[simp] theorem waitFin_state : c.waitFin.state = .finWait := rfl

variable (flags : UInt8) (len : Nat) (bytes : List UInt8) (now : UInt64)

@[simp] theorem record_inUse : (c.record flags len bytes now).inUse = c.inUse := by
  unfold record; split <;> rfl
@[simp] theorem record_state : (c.record flags len bytes now).state = c.state := by
  unfold record; split <;> rfl
@[simp] theorem record_sndUna : (c.record flags len bytes now).sndUna = c.sndUna := by
  unfold record; split <;> rfl
@[simp] theorem record_peerFin : (c.record flags len bytes now).peerFin = c.peerFin := by
  unfold record; split <;> rfl

@[simp] theorem record_kept : let c' := c.record flags len bytes now
    c'.peerIp = c.peerIp ∧ c'.peerPort = c.peerPort ∧ c'.localPort = c.localPort ∧
      c'.rcvNxt = c.rcvNxt ∧ c'.rx = c.rx := by
  unfold record; split <;> simp

/-- A segment that occupies sequence numbers is outstanding up to the new `snd_nxt`. -/
theorem record_outstanding (h : consumed flags len ≠ 0) :
    (c.record flags len bytes now).retxLen = bytes.length ∧
    (c.record flags len bytes now).retxSeq = c.sndNxt + UInt32.ofNat (consumed flags len) ∧
    (c.record flags len bytes now).sndNxt = c.sndNxt + UInt32.ofNat (consumed flags len) := by
  simp [record, h]

end TcpConn

/-! ## Sockets, the ARP cache and the rest -/

abbrev udpSockets : Nat := 8
def udpQueue : Nat := 4
def udpMsgMax : Nat := 1472
abbrev arpEntries : Nat := 8

/-- `struct udp_dgram` -/
structure UdpDgram where
  srcIp : UInt32
  srcPort : UInt16
  len : Nat
  data : List UInt8

/-- `struct udp_socket`; a local port of 0 is an unbound socket. -/
structure UdpSocket where
  inUse : Bool
  localPort : UInt16
  q : Ring udpQueue UdpDgram

/-- One entry of `arp_cache`. -/
structure ArpEntry where
  ip : UInt32
  mac : Mac
  valid : Bool

/-- The static variables of the stack. -/
structure Stack where
  ready : Bool
  myIp : UInt32
  myMask : UInt32
  myGw : UInt32
  myMac : Mac
  ipIdCtr : UInt16
  ephemeralNext : UInt16
  arpCache : Fin arpEntries → ArpEntry
  pingGot : Bool
  pingSeq : UInt16
  pingSendUs : UInt64
  pingRttUs : UInt64
  conns : Fin tcpConns → TcpConn
  socks : Fin udpSockets → UdpSocket

/-- A symmetric relation between any two entries of a table survives the replacement of one
entry by one that has it to the others. -/
theorem pairwise_update {α β : Type} [DecidableEq α] {R : β → β → Prop}
    (hsymm : ∀ a b, R a b → R b a) {f : α → β} (h : ∀ i j, i ≠ j → R (f i) (f j)) {k : α} {v : β}
    (hv : ∀ j, j ≠ k → R v (f j)) (i j : α) (hij : i ≠ j) :
    R (update f k v i) (update f k v j) := by
  rcases eq_or_ne i k with rfl | hi
  · rw [update_self, update_of_ne hij.symm]
    exact hv j hij.symm
  rw [update_of_ne hi]
  rcases eq_or_ne j k with rfl | hj
  · rw [update_self]
    exact hsymm _ _ (hv i hi)
  · rw [update_of_ne hj]
    exact h i j hij

namespace Stack

/-- The stack once `net_init` has found a card with address `mac`, before it is configured. -/
def boot (mac : Mac) : Stack where
  ready := true
  myIp := 0
  myMask := 0
  myGw := 0
  myMac := mac
  ipIdCtr := 1
  ephemeralNext := 49152
  arpCache := fun _ => ⟨0, fun _ => 0, false⟩
  pingGot := false
  pingSeq := 0
  pingSendUs := 0
  pingRttUs := 0
  conns := fun _ => .zero
  socks := fun _ => ⟨false, 0, Ring.empty udpQueue ⟨0, 0, 0, []⟩⟩

def setConn (n : Stack) (i : Fin tcpConns) (c : TcpConn) : Stack :=
  { n with conns := update n.conns i c }

def setSock (n : Stack) (s : Fin udpSockets) (k : UdpSocket) : Stack :=
  { n with socks := update n.socks s k }

@[simp] theorem setConn_same (n : Stack) (i : Fin tcpConns) (c : TcpConn) :
    (n.setConn i c).conns i = c := by
  simp [setConn]

@[simp] theorem setConn_of_ne (n : Stack) {i j : Fin tcpConns} (c : TcpConn) (h : j ≠ i) :
    (n.setConn i c).conns j = n.conns j := by
  simp [setConn, h]

@[simp] theorem setConn_self (n : Stack) (i : Fin tcpConns) : n.setConn i (n.conns i) = n := by
  simp [setConn]

/-- `net_next_ephemeral`: the port and the stack with the counter moved on. -/
def nextEphemeral (n : Stack) : UInt16 × Stack :=
  (n.ephemeralNext,
    { n with ephemeralNext := if n.ephemeralNext + 1 = 0 then 49152 else n.ephemeralNext + 1 })

@[simp] theorem nextEphemeral_conns (n : Stack) : n.nextEphemeral.2.conns = n.conns := rfl

/-! ### TCP lookups -/

/-- `tcp_find` -/
def tcpFind (n : Stack) (srcIp : UInt32) (sport dport : UInt16) : Option (Fin tcpConns) :=
  (finRange tcpConns).find? fun i =>
    let c := n.conns i
    c.inUse && c.peerIp == srcIp && c.peerPort == sport && c.localPort == dport

/-- The listening connection a SYN to port `dport` opens (lines 185 to 188). -/
def listener (n : Stack) (dport : UInt16) : Option (Fin tcpConns) :=
  (finRange tcpConns).find? fun i =>
    let c := n.conns i
    c.inUse && c.state = .listen && c.localPort == dport

/-- The first connection record not in use. -/
def freeConn (n : Stack) : Option (Fin tcpConns) :=
  (finRange tcpConns).find? fun i => !(n.conns i).inUse

/-! ### ARP -/

/-- `arp_lookup` -/
def arpLookup (n : Stack) (ip : UInt32) : Option Mac :=
  ((finRange arpEntries).find? fun i => (n.arpCache i).valid && (n.arpCache i).ip == ip).map
    fun i => (n.arpCache i).mac

/-- The entry `arp_insert` writes: the one for `ip`, else the last free one, else the first. -/
def arpSlot (n : Stack) (ip : UInt32) : Fin arpEntries :=
  match (finRange arpEntries).find? fun i =>
    (n.arpCache i).valid && (n.arpCache i).ip == ip with
  | some i => i
  | none => ((finRange arpEntries).filter fun i => !(n.arpCache i).valid).getLast?.getD 0

/-- `arp_insert` -/
def arpInsert (n : Stack) (ip : UInt32) (mac : Mac) : Stack :=
  { n with arpCache := update n.arpCache (n.arpSlot ip) ⟨ip, mac, true⟩ }

/-- The next hop `ip_send` resolves. -/
def nexthop (n : Stack) (dstIp : UInt32) : UInt32 :=
  if dstIp &&& n.myMask = n.myIp &&& n.myMask then dstIp else n.myGw

/-! ### UDP -/

/-- `port_in_use` -/
def portInUse (n : Stack) (port : UInt16) : Bool :=
  (finRange udpSockets).any fun s => (n.socks s).inUse && (n.socks s).localPort == port

/-- The first socket not in use. -/
def freeSock (n : Stack) : Option (Fin udpSockets) :=
  (finRange udpSockets).find? fun s => !(n.socks s).inUse

/-- The socket a datagram to `dport` is queued on. -/
def boundSock (n : Stack) (dport : UInt16) : Option (Fin udpSockets) :=
  (finRange udpSockets).find? fun s => (n.socks s).inUse && (n.socks s).localPort == dport

/-- The search of `net_udp_bind` for a free ephemeral port. -/
def pickEphemeral : (tries : Nat) → Stack → Option UInt16 × Stack
  | 0, n => (none, n)
  | tries + 1, n =>
    let p := n.nextEphemeral
    if p.2.portInUse p.1 then pickEphemeral tries p.2 else (some p.1, p.2)

@[simp] theorem pickEphemeral_conns (tries : Nat) (n : Stack) :
    (pickEphemeral tries n).2.conns = n.conns := by
  induction tries generalizing n with
  | zero => rfl
  | succ tries ih =>
    simp only [pickEphemeral]
    split
    · rw [ih, nextEphemeral_conns]
    · rw [nextEphemeral_conns]

/-- `net_udp_bind` on a valid socket: whether it is bound now, and the stack. A port of 0
asks for an ephemeral one. -/
def udpBind (n : Stack) (s : Fin udpSockets) (port : UInt16) : Bool × Stack :=
  if !(n.socks s).inUse then (false, n)
  else if port = 0 then
    match pickEphemeral 16384 n with
    | (none, n') => (false, n')
    | (some p, n') => (true, n'.setSock s { n'.socks s with localPort := p })
  else if n.portInUse port then (false, n)
  else (true, n.setSock s { n.socks s with localPort := port })

@[simp] theorem udpBind_conns (n : Stack) (s : Fin udpSockets) (port : UInt16) :
    (n.udpBind s port).2.conns = n.conns := by
  have hpick := pickEphemeral_conns 16384 n
  simp only [udpBind]
  split
  · rfl
  · split
    · split <;> rename_i heq <;> rw [heq] at hpick <;> exact hpick
    · split <;> rfl

end Stack

end JuampiOs.Net
