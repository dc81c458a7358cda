import JuampiOs.Lib.Wire
import Mathlib.Data.List.FinRange

/-!
# Packet formats

The headers of `net.c`, `udp.c` and `tcp.c` as they stand on the wire, and the Internet
checksum. A header is a record of host-order values; `bytes` lays it out as the code's packed
struct does and `parse` reads it at the head of a packet. Checksums are kept as the raw
16-bit words the code stores, without a byte swap.
-/

namespace JuampiOs.Net

open Lib.Wire

/-! ## The Internet checksum -/

/-- `csum_add`: the sum of the 16-bit words of a buffer, an odd last byte on its own. -/
def csumAdd (sum : UInt32) : List UInt8 → UInt32
  | a :: b :: rest => csumAdd (sum + UInt32.ofNat (a.toNat + 256 * b.toNat)) rest
  | [a] => sum + UInt32.ofNat a.toNat
  | [] => sum

/-- The loop of `csum_fold`; `fuel` bounds its rounds. -/
def csumCarry : (fuel : Nat) → UInt32 → UInt32
  | 0, sum => sum
  | fuel + 1, sum =>
    if sum >>> 16 ≠ 0 then csumCarry fuel ((sum &&& (0xFFFF : UInt32)) + (sum >>> 16)) else sum

/-- `csum_fold`. Two rounds are all the loop ever takes (`csumCarry_done`). -/
def csumFold (sum : UInt32) : UInt16 := ~~~(csumCarry 2 sum).toUInt16

/-- `inet_csum` -/
def inetCsum (data : List UInt8) : UInt16 := csumFold (csumAdd 0 data)

theorem carry_toNat (sum : UInt32) :
    ((sum &&& (0xFFFF : UInt32)) + (sum >>> 16)).toNat = sum.toNat % 65536 + sum.toNat / 65536 := by
  have hs := sum.toNat_lt
  have hlo : (sum &&& (0xFFFF : UInt32)).toNat = sum.toNat % 65536 := by
    rw [UInt32.toNat_and]
    exact Nat.and_two_pow_sub_one_eq_mod sum.toNat 16
  have hhi : (sum >>> 16).toNat = sum.toNat / 65536 := by
    rw [UInt32.toNat_shiftRight]
    exact Nat.shiftRight_eq_div_pow sum.toNat 16
  rw [UInt32.toNat_add, hlo, hhi]
  omega

theorem csumCarry_done (sum : UInt32) : csumCarry 2 sum >>> 16 = 0 := by
  have hzero : ∀ s : UInt32, s.toNat < 65536 → s >>> 16 = 0 := by
    intro s hs
    apply UInt32.toNat_inj.mp
    rw [UInt32.toNat_shiftRight]
    exact (Nat.shiftRight_eq_div_pow s.toNat 16).trans (Nat.div_eq_of_lt hs)
  have hs := sum.toNat_lt
  have hround := carry_toNat sum
  by_cases h1 : sum >>> 16 = 0
  · simp [csumCarry, h1]
  by_cases h2 : ((sum &&& (0xFFFF : UInt32)) + (sum >>> 16)) >>> 16 = 0
  · simp [csumCarry, h1, h2]
  · -- the first round leaves at most 0x1FFFE, so the second leaves a 16-bit value
    simp only [csumCarry, h1, h2, ne_eq, not_false_eq_true, if_true]
    apply hzero
    rw [carry_toNat, hround]
    omega

/-! ## Ethernet and ARP -/

/-- A hardware address. -/
abbrev Mac := Fin 6 → UInt8

def macAt (p : List UInt8) (off : Nat) : Mac := fun k => byte p (off + k)

def bcastMac : Mac := fun _ => 0xFF

/-- `mac_eq` -/
def macEq (a b : Mac) : Bool := (List.finRange 6).all fun k => a k == b k

def ethArp : UInt16 := 0x0806
def ethIp : UInt16 := 0x0800

/-- `struct eth_hdr` -/
structure EthHdr where
  dst : Mac
  src : Mac
  type : UInt16

def EthHdr.bytes (h : EthHdr) : List UInt8 := List.ofFn h.dst ++ List.ofFn h.src ++ be16 h.type

def EthHdr.parse (p : List UInt8) : EthHdr := ⟨macAt p 0, macAt p 6, rd16 p 12⟩

def ethHdrSize : Nat := 14

/-- `struct arp_pkt`; addresses are host-order values, as `bytes_to_ip` and `ip_to_bytes`
convert them. -/
structure ArpPkt where
  htype : UInt16
  ptype : UInt16
  hlen : UInt8
  plen : UInt8
  oper : UInt16
  sha : Mac
  spa : UInt32
  tha : Mac
  tpa : UInt32

def ArpPkt.bytes (a : ArpPkt) : List UInt8 :=
  be16 a.htype ++ be16 a.ptype ++ [a.hlen, a.plen] ++ be16 a.oper ++ List.ofFn a.sha ++
    be32 a.spa ++ List.ofFn a.tha ++ be32 a.tpa

def ArpPkt.parse (p : List UInt8) : ArpPkt where
  htype := rd16 p 0
  ptype := rd16 p 2
  hlen := byte p 4
  plen := byte p 5
  oper := rd16 p 6
  sha := macAt p 8
  spa := rd32 p 14
  tha := macAt p 18
  tpa := rd32 p 24

def arpPktSize : Nat := 28

/-! ## IPv4 -/

def ipProtoIcmp : UInt8 := 1
def ipProtoTcp : UInt8 := 6
def ipProtoUdp : UInt8 := 17

/-- `struct ip_hdr` -/
structure IpHdr where
  verIhl : UInt8
  tos : UInt8
  totLen : UInt16
  id : UInt16
  frag : UInt16
  ttl : UInt8
  proto : UInt8
  csum : UInt16
  src : UInt32
  dst : UInt32

def IpHdr.bytes (h : IpHdr) : List UInt8 :=
  [h.verIhl, h.tos] ++ be16 h.totLen ++ be16 h.id ++ be16 h.frag ++ [h.ttl, h.proto] ++
    raw16 h.csum ++ be32 h.src ++ be32 h.dst

def IpHdr.parse (p : List UInt8) : IpHdr where
  verIhl := byte p 0
  tos := byte p 1
  totLen := rd16 p 2
  id := rd16 p 4
  frag := rd16 p 6
  ttl := byte p 8
  proto := byte p 9
  csum := rdRaw16 p 10
  src := rd32 p 12
  dst := rd32 p 16

def ipHdrSize : Nat := 20

/-- The pseudo-header in front of the UDP and TCP checksums. -/
def pseudoHdr (srcIp dstIp : UInt32) (proto : UInt8) (len : Nat) : List UInt8 :=
  be32 srcIp ++ be32 dstIp ++ [0, proto] ++ be16 (UInt16.ofNat len)

/-! ## ICMP and UDP -/

def icmpEchoRequest : UInt8 := 8
def icmpEchoReply : UInt8 := 0

/-- `struct icmp_hdr` -/
structure IcmpHdr where
  type : UInt8
  code : UInt8
  csum : UInt16
  id : UInt16
  seq : UInt16

def IcmpHdr.bytes (h : IcmpHdr) : List UInt8 :=
  [h.type, h.code] ++ raw16 h.csum ++ be16 h.id ++ be16 h.seq

def IcmpHdr.parse (p : List UInt8) : IcmpHdr :=
  ⟨byte p 0, byte p 1, rdRaw16 p 2, rd16 p 4, rd16 p 6⟩

def icmpHdrSize : Nat := 8

/-- `struct udp_hdr` -/
structure UdpHdr where
  sport : UInt16
  dport : UInt16
  len : UInt16
  csum : UInt16

def UdpHdr.bytes (h : UdpHdr) : List UInt8 :=
  be16 h.sport ++ be16 h.dport ++ be16 h.len ++ raw16 h.csum

def UdpHdr.parse (p : List UInt8) : UdpHdr := ⟨rd16 p 0, rd16 p 2, rd16 p 4, rdRaw16 p 6⟩

def udpHdrSize : Nat := 8

/-- `udp_checksum`: a computed 0 is sent as 0xFFFF. -/
def udpChecksum (srcIp dstIp : UInt32) (seg : List UInt8) : UInt16 :=
  let c := csumFold (csumAdd (csumAdd 0 (pseudoHdr srcIp dstIp ipProtoUdp seg.length)) seg)
  if c ≠ 0 then c else 0xFFFF

/-! ## TCP -/

def tcpFin : UInt8 := 0x01
def tcpSyn : UInt8 := 0x02
def tcpRst : UInt8 := 0x04
def tcpPsh : UInt8 := 0x08
def tcpAckFlag : UInt8 := 0x10

/-- `struct tcp_hdr` -/
structure TcpHdr where
  sport : UInt16
  dport : UInt16
  seq : UInt32
  ack : UInt32
  off : UInt8
  flags : UInt8
  window : UInt16
  csum : UInt16
  urg : UInt16
deriving DecidableEq

def TcpHdr.bytes (h : TcpHdr) : List UInt8 :=
  be16 h.sport ++ be16 h.dport ++ be32 h.seq ++ be32 h.ack ++ [h.off, h.flags] ++
    be16 h.window ++ raw16 h.csum ++ be16 h.urg

def TcpHdr.parse (p : List UInt8) : TcpHdr where
  sport := rd16 p 0
  dport := rd16 p 2
  seq := rd32 p 4
  ack := rd32 p 8
  off := byte p 12
  flags := byte p 13
  window := rd16 p 14
  csum := rdRaw16 p 16
  urg := rd16 p 18

def tcpHdrSize : Nat := 20

/-- `tcp_checksum` -/
def tcpChecksum (srcIp dstIp : UInt32) (seg : List UInt8) : UInt16 :=
  csumFold (csumAdd (csumAdd 0 (pseudoHdr srcIp dstIp ipProtoTcp seg.length)) seg)

/-- **A TCP header is read back as it was written.** -/
theorem TcpHdr.parse_bytes (h : TcpHdr) (data : List UInt8) : parse (h.bytes ++ data) = h := by
  obtain ⟨sport, dport, seq, ack, off, flags, window, csum, urg⟩ := h
  simp [parse, bytes, be16, be32, raw16, rd16, rd32, rdRaw16]

end JuampiOs.Net
