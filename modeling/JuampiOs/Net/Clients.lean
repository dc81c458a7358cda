import JuampiOs.Lib.Bytes
import JuampiOs.Net.Code
import JuampiOs.Str

/-!
# The DNS and DHCP clients

What `dns.c` and `dhcp.c` make of the replies to their requests. Both receive into a buffer on the
stack and parse it with the length `net_udp_recvfrom` returned. A buffer is what memory holds from
its first byte on; `stale` is what was there before the datagram was copied in. The transaction
numbers are the parameters `id` and `xid` (the code takes them from the cycle counter).
-/

namespace JuampiOs.Net

open Lib Lib.Wire
open Str

/-! ## Receiving -/

/-- The 16-bit field at `o`, as `ntohs` reads it. -/
def ntohsAt (m : Buf) (o : Nat) : UInt16 := of16 (m o) (m (o + 1))

/-- The 32-bit field at `o`, as `ntohl` and `get32` read it. -/
def ntohlAt (m : Buf) (o : Nat) : UInt32 := of32 (m o) (m (o + 1)) (m (o + 2)) (m (o + 3))

/-- The receive buffer after `net_udp_recvfrom` has copied `data` into it. -/
def receiveBuffer (stale : Buf) (data : List UInt8) : Buf :=
  stale.blit 0 data.length fun i => data.getD i 0

/-- The two clients. -/
inductive Client where
  | dns | dhcp
deriving DecidableEq

/-- `sizeof r` in `net_resolve`, `sizeof reply` in `exchange`. -/
def Client.cap : Client → UInt16
  | .dns => 512
  | .dhcp => 600

/-- The shortest datagram the client parses: `n >= sizeof(struct dns_header)`, and `r > 0`. -/
def Client.least : Client → Int
  | .dns => 12
  | .dhcp => 1

/-- What the parser of the client is run on: its buffer and the length it is given. -/
def Client.parseRun (c : Client) (stale : Buf) (r : Reply) : Option (Buf × Nat) :=
  if c.least ≤ r.ret then some (receiveBuffer stale r.data, r.ret.toNat) else none

/-! ## DNS -/

/-- The loop of `net_aton` over the octets that end in a dot, and the last one. -/
def atonFrom (ip : UInt32) : (dots : Nat) → List UInt8 → Option UInt32
  | dots, rest =>
    let octet := if dots = 0 then rest else (strCutCh rest 46).2.1
    if dots ≠ 0 ∧ (strCutCh rest 46).1 = false then none
    else if octet.length = 0 ∨ 3 < octet.length then none
    else
      match strToU32 octet with
      | none => none
      | some v =>
        if 255 < v then none
        else
          match dots with
          | 0 => some (ip <<< 8 ||| v)
          | dots + 1 => atonFrom (ip <<< 8 ||| v) dots (strCutCh rest 46).2.2

/-- `net_aton` -/
def netAton (s : List UInt8) : Option UInt32 := atonFrom 0 3 (strFrom s)

/-- The loop of `skip_name`; `fuel` bounds its rounds. -/
def skipNameFrom (m : Buf) (len : Nat) : (fuel : Nat) → Nat → Option Nat
  | 0, _ => none
  | fuel + 1, o =>
    if o < len then
      if m o &&& 0xC0 = 0xC0 then some (o + 2)
      else if m o = 0 then some (o + 1)
      else skipNameFrom m len fuel (o + 1 + (m o).toNat)
    else none

/-- `skip_name`; the offset moves on in every round, so there are at most `len` of them. -/
def skipName (m : Buf) (len o : Nat) : Option Nat := skipNameFrom m len (len + 1) o

/-- The loop of `parse_answer` over the questions. -/
def skipQuestions (m : Buf) (len : Nat) : (qd : Nat) → Nat → Option Nat
  | 0, o => some o
  | qd + 1, o =>
    match skipName m len o with
    | none => none
    | some o => if len < o + 4 then none else skipQuestions m len qd (o + 4)

/-- The loop of `parse_answer` over the answers. -/
def findAnswer (m : Buf) (len : Nat) : (an : Nat) → Nat → Option UInt32
  | 0, _ => none
  | an + 1, o =>
    match skipName m len o with
    | none => none
    | some o =>
      if len < o + 10 then none
      else
        let type := ntohsAt m o
        let rdlen := (ntohsAt m (o + 8)).toNat
        let o := o + 10
        if len < o + rdlen then none
        else if type = 1 ∧ rdlen = 4 then some (ntohlAt m o)
        else findAnswer m len an (o + rdlen)

/-- `parse_answer` -/
def parseAnswer (m : Buf) (len : Nat) (id : UInt16) : Option UInt32 :=
  if len < 12 then none
  else if ntohsAt m 0 ≠ id then none
  else if ntohsAt m 2 &&& 0x000F ≠ 0 then none
  else
    match skipQuestions m len (ntohsAt m 4).toNat 12 with
    | none => none
    | some o => findAnswer m len (ntohsAt m 6).toNat o

/-- What `net_resolve` makes of a reply. -/
def dnsAttempt (stale : Buf) (r : Reply) (id : UInt16) : Option UInt32 :=
  match Client.dns.parseRun stale r with
  | some (m, len) => parseAnswer m len id
  | none => none

/-! ## DHCP -/

/-- `struct dhcp_lease` -/
structure DhcpLease where
  ip : UInt32
  mask : UInt32
  gatewayIp : UInt32
  dnsIp : UInt32
  serverIp : UInt32
deriving DecidableEq

/-- The message type found so far and the lease filled in so far. -/
structure DhcpFound where
  mtype : UInt8
  lease : DhcpLease

/-- One option of `parse`: `code`, with `l` bytes from `o` on. -/
def DhcpFound.option (p : DhcpFound) (d : Buf) (code : UInt8) (l o : Nat) : DhcpFound :=
  if code = 53 ∧ 1 ≤ l then { p with mtype := d o }
  else if code = 1 ∧ 4 ≤ l then { p with lease := { p.lease with mask := ntohlAt d o } }
  else if code = 3 ∧ 4 ≤ l then { p with lease := { p.lease with gatewayIp := ntohlAt d o } }
  else if code = 6 ∧ 4 ≤ l then { p with lease := { p.lease with dnsIp := ntohlAt d o } }
  else if code = 54 ∧ 4 ≤ l then { p with lease := { p.lease with serverIp := ntohlAt d o } }
  else p

/-- The loop of `parse`; every round moves on, so `fuel` is the length of the message. -/
def dhcpOptions (d : Buf) (len : Nat) : (fuel : Nat) → Nat → DhcpFound → DhcpFound
  | 0, _, p => p
  | fuel + 1, o, p =>
    if o < len ∧ d o ≠ 255 then
      if d o = 0 then dhcpOptions d len fuel (o + 1) p
      else if len ≤ o + 1 then p
      else
        let l := (d (o + 1)).toNat
        if len < o + 2 + l then p
        else dhcpOptions d len fuel (o + 2 + l) (p.option d (d o) l (o + 2))
    else p

/-- `parse` -/
def dhcpParse (d : Buf) (len : Nat) (xid : UInt32) (want : UInt8) : Option DhcpLease :=
  if len < 240 then none
  else if d 0 ≠ 2 ∨ ntohlAt d 4 ≠ xid then none
  else if ntohlAt d 236 ≠ 0x63825363 then none
  else
    let p := dhcpOptions d len len 240 ⟨0, ⟨ntohlAt d 16, 0, 0, 0, 0⟩⟩
    if p.mtype = want then some p.lease else none

/-- What `exchange` makes of a reply. -/
def dhcpAttempt (stale : Buf) (r : Reply) (xid : UInt32) (want : UInt8) : Option DhcpLease :=
  match Client.dhcp.parseRun stale r with
  | some (m, len) => dhcpParse m len xid want
  | none => none

end JuampiOs.Net
