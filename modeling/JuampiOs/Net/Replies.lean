import JuampiOs.Net.Clients
import JuampiOs.Net.Udp

/-!
# What the clients read of a reply

The two parsers read only below the length they are given (`parseAnswer_congr`,
`dhcpParse_congr`), so a reply is interpreted from the bytes that were copied out of the
datagram as long as that length is not larger than their number. The length is the one
`net_udp_recvfrom` returns, and that is the length of the datagram, not of what was copied: it
is right exactly if the datagram fits into the buffer of the client (`reply_within_iff`).
-/

namespace JuampiOs.Net

open Lib Lib.Wire List Stack

/-! ## The parsers read below their length -/

section Parsers

variable {m m' : Buf} {len : Nat} (hm : ∀ i, i < len → m i = m' i)
include hm

theorem ntohsAt_congr {o : Nat} (h : o + 2 ≤ len) : ntohsAt m o = ntohsAt m' o := by
  rw [ntohsAt, ntohsAt, hm o (by omega), hm (o + 1) (by omega)]

theorem ntohlAt_congr {o : Nat} (h : o + 4 ≤ len) : ntohlAt m o = ntohlAt m' o := by
  rw [ntohlAt, ntohlAt, hm o (by omega), hm (o + 1) (by omega), hm (o + 2) (by omega),
    hm (o + 3) (by omega)]

theorem skipNameFrom_congr (fuel o : Nat) :
    skipNameFrom m len fuel o = skipNameFrom m' len fuel o := by
  induction fuel generalizing o with
  | zero => rfl
  | succ fuel ih =>
    rw [skipNameFrom, skipNameFrom]
    by_cases ho : o < len
    · rw [if_pos ho, if_pos ho, hm o ho, ih]
    · rw [if_neg ho, if_neg ho]

theorem skipQuestions_congr
    (qd o : Nat) : skipQuestions m len qd o = skipQuestions m' len qd o := by
  induction qd generalizing o with
  | zero => rfl
  | succ qd ih =>
    rw [skipQuestions, skipQuestions, skipName, skipName, skipNameFrom_congr hm]
    split
    · rfl
    · rw [ih]

theorem findAnswer_congr (an o : Nat) : findAnswer m len an o = findAnswer m' len an o := by
  induction an generalizing o with
  | zero => rfl
  | succ an ih =>
    rw [findAnswer, findAnswer, skipName, skipName, skipNameFrom_congr hm]
    split
    · rfl
    rename_i o' _
    by_cases hrr : len < o' + 10
    · rw [if_pos hrr, if_pos hrr]
    -- the fixed part of the record is inside
    rw [if_neg hrr, if_neg hrr, ntohsAt_congr hm (o := o') (by omega),
      ntohsAt_congr hm (o := o' + 8) (by omega)]
    dsimp only
    by_cases hrd : len < o' + 10 + (ntohsAt m' (o' + 8)).toNat
    · rw [if_pos hrd, if_pos hrd]
    rw [if_neg hrd, if_neg hrd, ih]
    split
    · rename_i ha
      rw [ntohlAt_congr hm (by omega)]
    · rfl

/-- **`parse_answer` reads only below the length it is given.** -/
theorem parseAnswer_congr (id : UInt16) : parseAnswer m len id = parseAnswer m' len id := by
  unfold parseAnswer
  by_cases hlen : len < 12
  · rw [if_pos hlen, if_pos hlen]
  rw [if_neg hlen, if_neg hlen, ntohsAt_congr hm (o := 0) (by omega),
    ntohsAt_congr hm (o := 2) (by omega), ntohsAt_congr hm (o := 4) (by omega),
    ntohsAt_congr hm (o := 6) (by omega), skipQuestions_congr hm]
  split
  · rfl
  split
  · rfl
  · split
    · rfl
    · exact findAnswer_congr hm _ _

theorem option_congr (p : DhcpFound) (code : UInt8) {l o : Nat} (h : o + l ≤ len) :
    p.option m code l o = p.option m' code l o := by
  have hbyte : 1 ≤ l → m o = m' o := fun hl => hm o (by omega)
  have hword : 4 ≤ l → ntohlAt m o = ntohlAt m' o := fun hl => ntohlAt_congr hm (by omega)
  unfold DhcpFound.option
  repeat' split
  all_goals simp_all

theorem dhcpOptions_congr (fuel o : Nat) (p : DhcpFound) :
    dhcpOptions m len fuel o p = dhcpOptions m' len fuel o p := by
  induction fuel generalizing o p with
  | zero => rfl
  | succ fuel ih =>
    rw [dhcpOptions, dhcpOptions]
    by_cases ho : o < len
    · rw [hm o ho]
      split
      · split
        · exact ih _ _
        · by_cases h1 : len ≤ o + 1
          · rw [if_pos h1, if_pos h1]
          · rw [if_neg h1, if_neg h1, hm (o + 1) (by omega)]
            dsimp only
            split
            · rfl
            · rename_i hl
              rw [option_congr hm p (m' o) (by omega), ih]
      · rfl
    · rw [if_neg (fun h => ho h.1), if_neg (fun h => ho h.1)]

/-- **The DHCP `parse` reads only below the length it is given.** -/
theorem dhcpParse_congr (xid : UInt32) (want : UInt8) :
    dhcpParse m len xid want = dhcpParse m' len xid want := by
  unfold dhcpParse
  by_cases hlen : len < 240
  · rw [if_pos hlen, if_pos hlen]
  · rw [if_neg hlen, if_neg hlen, hm 0 (by omega), ntohlAt_congr hm (o := 4) (by omega),
      ntohlAt_congr hm (o := 236) (by omega), ntohlAt_congr hm (o := 16) (by omega),
      dhcpOptions_congr hm]

end Parsers

/-! ## What is queued -/

/-- A queue entry records all of its bytes, at most 1472. -/
def Wellformed (d : UdpDgram) : Prop := d.len = d.data.length ∧ d.data.length ≤ udpMsgMax

theorem datagram_wellformed {srcIp : UInt32} {data : List UInt8} {dport : UInt16} {d : UdpDgram}
    (h : datagram srcIp data = some (dport, d)) : Wellformed d := by
  unfold datagram at h
  split at h
  · cases h
  dsimp only at h
  split at h
  · cases h
  · cases h
    refine ⟨rfl, ?_⟩
    rw [length_take]
    omega

theorem mem_queue_setSock {n : Stack} {s k : Sock} {v : UdpSocket} {d : UdpDgram}
    (h : d ∈ ((n.setSock k v).socks s).q.contents) :
    (s = k ∧ d ∈ v.q.contents) ∨ d ∈ (n.socks s).q.contents := by
  simp only [setSock, Function.update_apply] at h
  split at h
  · exact .inl ⟨‹_›, h⟩
  · exact .inr h

theorem mem_queue_udpDo {n : Stack} {op : UdpOp} {s : Sock} {d : UdpDgram}
    (h : d ∈ ((n.udpDo op).2.socks s).q.contents) :
    d ∈ (n.socks s).q.contents ∨ ∃ srcIp data dport, datagram srcIp data = some (dport, d) := by
  cases op with
  | opens =>
    change d ∈ (n.udpOpen.2.socks s).q.contents at h
    unfold udpOpen at h
    split at h
    · exact .inl h
    · obtain ⟨-, h⟩ | h := mem_queue_setSock h
      · simp [Ring.contents, Ring.peek] at h
      · exact .inl h
  | bind k port => exact .inl ((udpBindTo_socks n k port).q s ▸ h)
  | sendto k => exact .inl ((udpAutoBind_socks n k).q s ▸ h)
  | recvfrom k cap =>
    obtain ⟨rfl, h⟩ | h := mem_queue_setSock h
    · rw [Ring.contents_pop] at h
      exact .inl (mem_of_mem_drop h)
    · exact .inl h
  | close k =>
    change d ∈ ((n.udpClose k).socks s).q.contents at h
    unfold udpClose at h
    split at h
    · exact .inl h
    · obtain ⟨rfl, h⟩ | h := mem_queue_setSock h <;> exact .inl h
  | arrive srcIp data =>
    change d ∈ ((n.udpArrive srcIp data).socks s).q.contents at h
    unfold udpArrive at h
    split at h
    · exact .inl h
    rename_i dport d' hd
    split at h
    · exact .inl h
    split at h
    · obtain ⟨rfl, h⟩ | h := mem_queue_setSock h
      · rw [Ring.contents_push, mem_append, mem_singleton] at h
        obtain h | rfl := h
        · exact .inl h
        · exact .inr ⟨srcIp, data, dport, hd⟩
      · exact .inl h
    · exact .inl h

theorem queued_wellformed {mac : Mac} {tr : List UdpEntry} {n : Stack} (hrun : UdpRun mac tr n)
    (s : Sock) : ∀ d ∈ (n.socks s).q.contents, Wellformed d := by
  induction hrun with
  | boot =>
    intro d hd
    cases hd
  | step h op henabled ih =>
    intro d hd
    rcases mem_queue_udpDo hd with hold | ⟨srcIp, data, dport, hnew⟩
    · exact ih d hold
    · exact datagram_wellformed hnew
  | other h hsocks ih =>
    rw [hsocks]
    exact ih

/-! ## Replies -/

/-- The datagram `net_udp_recvfrom` is about to take. -/
def frontDatagram (n : Stack) (s : Sock) : UdpDgram :=
  (n.socks s).q.cell ((n.socks s).q.head % udpQueue)

/-- The client interprets only what was copied into its buffer: its parser is not given a length
beyond that, and what it makes of the reply does not depend on what the buffer held before. -/
structure InterpretsCopied (c : Client) (r : Reply) : Prop where
  within : ∀ stale m len, c.parseRun stale r = some (m, len) → len ≤ r.data.length
  dns : c = .dns → ∀ stale stale' id, dnsAttempt stale r id = dnsAttempt stale' r id
  dhcp : c = .dhcp → ∀ stale stale' xid want,
    dhcpAttempt stale r xid want = dhcpAttempt stale' r xid want

theorem receiveBuffer_eq (stale stale' : Buf) {data : List UInt8} {i : Nat} (h : i < data.length) :
    receiveBuffer stale data i = receiveBuffer stale' data i := by
  rw [receiveBuffer, receiveBuffer, Buf.blit_of_mem (by omega), Buf.blit_of_mem (by omega)]

theorem interpretsCopied_of_le {c : Client} {r : Reply} (h : r.ret ≤ r.data.length) :
    InterpretsCopied c r := by
  have hagree : ∀ stale stale' : Buf, ∀ i, i < r.ret.toNat →
      receiveBuffer stale r.data i = receiveBuffer stale' r.data i :=
    fun stale stale' i hi => receiveBuffer_eq stale stale' (by omega)
  refine ⟨?_, ?_, ?_⟩
  · intro stale m len hrun
    unfold Client.parseRun at hrun
    split at hrun
    · cases hrun
      omega
    · cases hrun
  · rintro rfl stale stale' id
    unfold dnsAttempt Client.parseRun
    by_cases hle : Client.dns.least ≤ r.ret
    · rw [if_pos hle, if_pos hle]
      exact parseAnswer_congr (hagree stale stale') id
    · rw [if_neg hle, if_neg hle]
  · rintro rfl stale stale' xid want
    unfold dhcpAttempt Client.parseRun
    by_cases hle : Client.dhcp.least ≤ r.ret
    · rw [if_pos hle, if_pos hle]
      exact dhcpParse_congr (hagree stale stale') xid want
    · rw [if_neg hle, if_neg hle]

/-- **Replies.** In every run, a client interprets only bytes that were copied out of the
datagram it receives, exactly if that datagram fits into its buffer: 512 bytes for DNS, 600 for
DHCP. -/
theorem reply_within_iff {mac : Mac} {tr : List UdpEntry} {n : Stack} (hrun : UdpRun mac tr n)
    (c : Client) (s : Sock) (henabled : (UdpOp.recvfrom s c.cap).Enabled n) :
    InterpretsCopied c (n.udpTake s c.cap).1 ↔
      (frontDatagram n s).data.length ≤ c.cap.toNat := by
  have hfront : frontDatagram n s ∈ (n.socks s).q.contents := by
    rw [Ring.contents_eq_cons _ henabled.2]
    exact mem_cons_self
  obtain ⟨hlen, -⟩ := queued_wellformed hrun s _ hfront
  have hret : (n.udpTake s c.cap).1.ret = (frontDatagram n s).data.length := by
    show ((frontDatagram n s).len : Int) = _
    rw [hlen]
  have hdata : (n.udpTake s c.cap).1.data.length =
      min c.cap.toNat (frontDatagram n s).data.length := length_take
  have hcap : c.least ≤ c.cap.toNat := by cases c <;> decide
  constructor
  · intro h
    by_contra hlong
    -- a datagram that does not fit is long enough to be parsed
    have hwithin := h.within Buf.zero _ _ (if_pos (by omega))
    omega
  · intro hfits
    apply interpretsCopied_of_le
    omega

/-! ## A reply of 513 bytes -/

/-- A stack with one socket, bound by its first transmission, on which a datagram from port 53 of
8.8.8.8 has arrived. -/
def answered (payload : List UInt8) : Stack :=
  ((((Stack.boot fun _ => 0).udpDo .opens).2.udpDo (.sendto 0)).2.udpDo (.arrive 0x08080808
    ((UdpHdr.mk 53 49152 (UInt16.ofNat (8 + payload.length)) 0).bytes ++ payload))).2

theorem udpRun_answered (payload : List UInt8) : ∃ tr, UdpRun (fun _ => 0) tr (answered payload) :=
  ⟨_, .step (.step (.step .boot .opens trivial) (.sendto 0) trivial) (.arrive _ _) trivial⟩

/-- A DNS answer with one record, for the address 10.0.0.9. -/
def answerFor (name : List UInt8) : List UInt8 :=
  be16 7 ++ be16 0 ++ be16 0 ++ be16 1 ++ be16 0 ++ be16 0 ++ name ++ [0] ++ be16 1 ++ be16 1 ++
    be32 60 ++ be16 4 ++ [10, 0, 0, 9]

/-- An answer for the name `a` fits, and resolves. -/
theorem reply_within_resolved : let r := ((answered (answerFor [1, 97])).udpTake 0 512).1
    InterpretsCopied .dns r ∧ dnsAttempt (fun _ => 5) r 7 = some 0x0A000009 := by
  obtain ⟨tr, hrun⟩ := udpRun_answered (answerFor [1, 97])
  exact ⟨(reply_within_iff hrun .dns 0 ⟨by decide, by decide⟩).mpr (by decide), by decide +kernel⟩

/-- A DNS answer whose name ends at 499 and whose address is at 509 to 512. -/
def longAnswer : List UInt8 :=
  answerFor ([191] ++ List.replicate 191 1 ++ [191] ++ List.replicate 191 1 ++ [101] ++
    List.replicate 101 1)

/-- Of 513 bytes the buffer of the DNS client holds 512. The answer is parsed all the same, and
the last byte of the address is whatever was on the stack. -/
theorem resolves_stale_byte :
    (∃ tr, UdpRun (fun _ => 0) tr (answered longAnswer)) ∧
      (UdpOp.recvfrom 0 512).Enabled (answered longAnswer) ∧
      ((answered longAnswer).udpTake 0 512).1.ret = 513 ∧
      ((answered longAnswer).udpTake 0 512).1.data.length = 512 ∧
      dnsAttempt (fun _ => 0) ((answered longAnswer).udpTake 0 512).1 7 = some 0x0A000000 ∧
      dnsAttempt (fun _ => 5) ((answered longAnswer).udpTake 0 512).1 7 = some 0x0A000005 :=
  ⟨udpRun_answered _, ⟨by decide +kernel, by decide +kernel⟩, by decide +kernel, by decide +kernel,
    by decide +kernel, by decide +kernel⟩

end JuampiOs.Net
