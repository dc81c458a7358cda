import JuampiOs.Net.Close

/-!
# Receiving

What `net_tcp_recv` returns, compared with what the peer sends. A peer is a `Stream`: its initial
sequence number and the bytes it sends before its FIN; every segment that arrives for a
connection carries a part of it, in any order and any number of times. Once the connection has
taken the peer's SYN, what was returned and what the receive ring holds are together a prefix of
the stream that ends where `rcv_nxt` points (`Synced`); before that nothing may be accepted
(`Unsynced`).
-/

namespace JuampiOs.Net

open Lib Lib.Lang List Event TcpConn UInt32

/-! ## The two ends of a connection -/

/-- The bytes `net_tcp_recv` has returned since the record was filled in. -/
def received (i : Slot) : List Event → List UInt8
  | [] => []
  | .received j bytes :: tr => if j = i then received i tr ++ bytes else received i tr
  | .opened j _ _ :: tr => if j = i then [] else received i tr
  | _ :: tr => received i tr

/-- What a peer sends: `bytes` from the sequence number after `isn` on, and then a FIN. -/
structure Stream where
  isn : UInt32
  bytes : List UInt8
  short : bytes.length < 2 ^ 31

/-- A segment of a peer that sends `S`, or a bare reset. -/
def Stream.Carries (S : Stream) (seg : Segment) : Prop :=
  (seg.isRst = true ∧ seg.isSyn = false) ∨
  ((seg.isSyn = true → seg.seq = S.isn ∧ seg.payload = [] ∧ seg.isFin = false) ∧
    (seg.payload ≠ [] → ∃ off, seg.seq = S.isn + 1 + UInt32.ofNat off ∧
      seg.payload <+: S.bytes.drop off) ∧
    (seg.isFin = true → seg.seq + seg.plen = S.isn + 1 + UInt32.ofNat S.bytes.length))

/-- A segment that arrives for connection `i`, with its source. -/
def Event.arrival (i : Slot) : Event → Option (UInt32 × Segment)
  | .passive j srcIp seg => if j = i then some (srcIp, seg) else none
  | .delivered j srcIp seg _ => if j = i then some (srcIp, seg) else none
  | _ => none

/-- All segments for connection `i` since the record was filled in come from a peer that sends
`S`, and none from address and port 0. -/
def FromPeer (S : Stream) (i : Slot) (tr : List Event) : Prop :=
  ∀ p ∈ (since i tr).filterMap (Event.arrival i), S.Carries p.2 ∧ (p.1 ≠ 0 ∨ p.2.sport ≠ 0)

/-- The connection is reset or given up while it waits for the peer's SYN. -/
def Event.dropsUnopened (i : Slot) : Event → Bool
  | .delivered j _ seg c => j = i && seg.isRst && c.state == .synSent && !c.peerFin
  | .gaveUp j c => j = i && c.state == .synSent && !c.peerFin
  | _ => false

/-- Data or a FIN at sequence number 0, where a record is that has not seen the peer's SYN. -/
def Segment.AtZero (seg : Segment) : Prop :=
  seg.payload ≠ [] ∧ seg.seq = 0 ∨ seg.isFin = true ∧ seg.seq + seg.plen = 0

instance (seg : Segment) : Decidable seg.AtZero := inferInstanceAs (Decidable (_ ∨ _))

/-- Data or a FIN at sequence number 0 is delivered to a connection that is done. -/
def Event.isLate (i : Slot) : Event → Bool
  | .delivered j _ seg c => j = i && !seg.isRst && c.state == .done && decide seg.AtZero
  | _ => false

/-- A connection that was reset or given up before the peer's SYN gets no data and no FIN at
sequence number 0, which `rcv_nxt` still is. -/
def NoLateData (i : Slot) (tr : List Event) : Prop :=
  (∃ e ∈ since i tr, e.dropsUnopened i = true) → ∀ e ∈ since i tr, e.isLate i = false

/-! ## The log and the hypotheses -/

section Log

variable {S : Stream} {i : Slot} {es tr : List Event}

theorem FromPeer.of_append (hes : ∀ e ∈ es, e.opens i = false) (h : FromPeer S i (es ++ tr)) :
    FromPeer S i tr := by
  intro p hp
  refine h p ?_
  rw [since_append hes, filterMap_append]
  exact mem_append_right _ hp

theorem FromPeer.delivered {srcIp : UInt32} {seg : Segment} {c : TcpConn} (h : FromPeer S i tr)
    (he : .delivered i srcIp seg c ∈ since i tr) : S.Carries seg ∧ (srcIp ≠ 0 ∨ seg.sport ≠ 0) :=
  h (srcIp, seg) (mem_filterMap.2 ⟨_, he, by simp [arrival]⟩)

theorem FromPeer.passive {srcIp : UInt32} {seg : Segment} (h : FromPeer S i tr)
    (he : .passive i srcIp seg ∈ since i tr) : S.Carries seg :=
  (h (srcIp, seg) (mem_filterMap.2 ⟨_, he, by simp [arrival]⟩)).1

theorem NoLateData.of_append (hes : ∀ e ∈ es, e.opens i = false) (h : NoLateData i (es ++ tr)) :
    NoLateData i tr := by
  rintro ⟨e, he, hd⟩ a ha
  exact h ⟨e, mem_since_append hes he, hd⟩ a (mem_since_append hes ha)

/-- An event that does not change what was returned on connection `i`. -/
def Event.isSilent (i : Slot) : Event → Bool
  | .received j _ => j ≠ i
  | .opened j _ _ => j ≠ i
  | _ => true

theorem received_append (hes : ∀ e ∈ es, e.isSilent i = true) :
    received i (es ++ tr) = received i tr := by
  induction es with
  | nil => rfl
  | cons e es ih =>
    have he := hes e (by simp)
    have ih := ih fun a ha => hes a (by simp [ha])
    cases e <;> simp_all [isSilent, received]

theorem Event.isSilent_of_slot_ne {e : Event} (h : e.slot ≠ some i) : e.isSilent i = true := by
  cases e <;> simp_all [slot, isSilent]

end Log

/-! ## Before the peer's SYN -/

/-- Nothing was accepted yet, and nothing that was delivered can be. -/
structure Unsynced (i : Slot) (c : TcpConn) (tr : List Event) : Prop where
  state : c.state = .closed ∨ c.state = .listen ∨ c.state = .synSent ∨ c.state = .done
  peerFin : c.peerFin = false
  rcvNxt : c.rcvNxt = 0
  contents : c.rx.contents = []
  received : received i tr = []
  last : ∀ v, lastEmit i tr = some v → v.1 = tcpSyn
  done : c.state = .done → ∃ e ∈ since i tr, e.dropsUnopened i = true
  harmless : ∀ srcIp seg d, .delivered i srcIp seg d ∈ since i tr → seg.isRst = false →
    d.state = .synSent ∨ ¬ seg.AtZero

section Unsynced

variable {i : Slot} {n : Stack} {es tr : List Event} {c c' : TcpConn}

theorem Unsynced.state_ne (h : Unsynced i c tr) {st : TcpState}
    (hst : st = .synRcvd ∨ st = .established ∨ st = .finWait) : c.state ≠ st := by
  obtain rfl | rfl | rfl := hst <;> obtain hs | hs | hs | hs := h.state <;> rw [hs] <;> decide

/-- A step that does not open the record, takes nothing out of its ring, sends at most a SYN and
delivers nothing that can be accepted. -/
theorem Unsynced.step (h : Unsynced i c tr) (hop : ∀ e ∈ es, e.opens i = false)
    (hstate : c'.state = c.state ∨ c'.state = .done) (hpeer : c'.peerFin = c.peerFin)
    (hnxt : c'.rcvNxt = c.rcvNxt) (hrx : c'.rx.contents = c.rx.contents)
    (hrecv : Net.received i (es ++ tr) = Net.received i tr)
    (hlast : ∀ v, lastEmit i (es ++ tr) = some v → lastEmit i tr = some v ∨ v.1 = tcpSyn)
    (hdone : c'.state = .done → c.state = .done ∨ ∃ e ∈ es, e.dropsUnopened i = true)
    (hseg : ∀ srcIp seg d, .delivered i srcIp seg d ∈ es → seg.isRst = false →
      d.state = .synSent ∨ ¬ seg.AtZero) : Unsynced i c' (es ++ tr) where
  state := hstate.elim (fun heq => heq ▸ h.state) fun hd => .inr (.inr (.inr hd))
  peerFin := hpeer.trans h.peerFin
  rcvNxt := hnxt.trans h.rcvNxt
  contents := hrx.trans h.contents
  received := hrecv.trans h.received
  last v hv := (hlast v hv).elim (h.last v) id
  done hd := by
    obtain hold | ⟨e, he, hdrop⟩ := hdone hd
    · obtain ⟨e, he, hdrop⟩ := h.done hold
      exact ⟨e, mem_since_append hop he, hdrop⟩
    · exact ⟨e, by simp [since_append hop, he], hdrop⟩
  harmless srcIp seg d hmem := by
    rw [since_append hop, mem_append] at hmem
    exact hmem.elim (hseg srcIp seg d) (h.harmless srcIp seg d)

/-- Events that neither open the record nor send on it nor deliver to it nor return bytes. -/
theorem Unsynced.log (h : Unsynced i c tr)
    (hes : ∀ e ∈ es, e.opens i = false ∧ e.emits i = false ∧ e.isSilent i = true ∧
      ∀ srcIp seg d, e ≠ .delivered i srcIp seg d) (hstate : c'.state = c.state := by rfl)
    (hpeer : c'.peerFin = c.peerFin := by rfl) (hnxt : c'.rcvNxt = c.rcvNxt := by rfl)
    (hrx : c'.rx.contents = c.rx.contents := by rfl) : Unsynced i c' (es ++ tr) := by
  refine h.step (fun e he => (hes e he).1) (.inl hstate) hpeer hnxt hrx
    (received_append fun e he => (hes e he).2.2.1) (fun v hv => .inl ?_)
    (fun hd => .inl (hstate ▸ hd)) fun srcIp seg d hmem => ?_
  · rwa [lastEmit_append fun e he => ⟨(hes e he).1, (hes e he).2.1⟩] at hv
  · exact absurd rfl ((hes _ hmem).2.2.2 srcIp seg d)

theorem Unsynced.found {S : Stream} {srcIp : UInt32} {seg : Segment} (h : Unsynced i (n.conns i) tr)
    (hfresh : Fresh i (n.conns i) tr) (hfind : n.tcpFind srcIp seg.sport seg.dport = some i)
    (hpeer : FromPeer S i (.delivered i srcIp seg (n.conns i) :: tr)) :
    (n.conns i).state = .synSent ∨ (n.conns i).state = .done := by
  obtain ⟨huse, hip, hport, _⟩ := Stack.tcpFind_spec hfind
  obtain hs | hs | hs := h.state
  · rw [(hfresh.closed hs).1] at huse
    exact absurd huse (by decide)
  · obtain ⟨_, hip0, hport0⟩ := hfresh.listen hs
    have hmem : .delivered i srcIp seg (n.conns i) ∈
        since i (.delivered i srcIp seg (n.conns i) :: tr) := by
      simp [opens]
    exact absurd (hpeer.delivered hmem).2 (by simp [← hip, ← hport, hip0, hport0])
  · exact hs

theorem Unsynced.deliver {srcIp : UInt32} {seg : Segment} (h : Unsynced i c tr)
    (hstate : c'.state = c.state ∨ c'.state = .done) (hpeer : c'.peerFin = c.peerFin)
    (hnxt : c'.rcvNxt = c.rcvNxt) (hrx : c'.rx = c.rx)
    (hdone : c'.state = .done → c.state = .done ∨
      (Event.delivered i srcIp seg c).dropsUnopened i = true)
    (hseg : seg.isRst = false → c.state = .synSent ∨ ¬ seg.AtZero) :
    Unsynced i c' ([.delivered i srcIp seg c] ++ tr) := by
  refine h.step (by simp [opens]) hstate hpeer hnxt (by rw [hrx]) rfl (fun _ => .inl) ?_ ?_
  · exact fun hd => (hdone hd).imp_right fun hnew => ⟨_, mem_singleton_self _, hnew⟩
  · intro srcIp' seg' d hmem hrst
    obtain ⟨-, -, rfl, rfl⟩ := delivered.inj (mem_singleton.1 hmem)
    exact hseg hrst

end Unsynced

/-! ## After the peer's SYN -/

/-- What was returned and what the ring holds are the first bytes of the stream, up to the
sequence number expected next; a FIN was taken only at the end of the stream. -/
structure Synced (S : Stream) (i : Slot) (c : TcpConn) (tr : List Event) : Prop where
  state : c.state ≠ .closed ∧ c.state ≠ .listen ∧ c.state ≠ .synSent
  taken : ∃ k ≤ S.bytes.length,
    c.rcvNxt = S.isn + 1 + UInt32.ofNat k + (if c.peerFin then 1 else 0) ∧
    received i tr ++ c.rx.contents = S.bytes.take k ∧ (c.peerFin = true → k = S.bytes.length)

section Synced

variable {S : Stream} {i : Slot} {n : Stack} {es tr : List Event} {c c' : TcpConn} {seg : Segment}

theorem Synced.congr (h : Synced S i c tr) (hstate : c'.state = c.state ∨
      (c'.state ≠ .closed ∧ c'.state ≠ .listen ∧ c'.state ≠ .synSent))
    (hes : ∀ e ∈ es, e.isSilent i = true := by simp [isSilent])
    (hsame : c'.rcvNxt = c.rcvNxt ∧ c'.peerFin = c.peerFin ∧ c'.rx = c.rx := by
      first | exact ⟨rfl, rfl, rfl⟩ | simp) : Synced S i c' (es ++ tr) where
  state := hstate.elim (fun heq => heq ▸ h.state) id
  taken := by
    rw [hsame.1, hsame.2.1, hsame.2.2, received_append hes]
    exact h.taken

/-- The record takes the peer's SYN. -/
theorem Synced.begin (hseg : S.Carries seg) (hsyn : seg.isSyn = true)
    (hstate : c.state ≠ .closed ∧ c.state ≠ .listen ∧ c.state ≠ .synSent)
    (hnxt : c.rcvNxt = seg.seq + 1) (hpeer : c.peerFin = false) (hrx : c.rx.contents = [])
    (hrecv : received i tr = []) : Synced S i c tr := by
  have hisn := ((hseg.resolve_left fun hr => by simp [hsyn] at hr).1 hsyn).1
  refine ⟨hstate, 0, Nat.zero_le _, ?_, by simp [hrecv, hrx], by simp [hpeer]⟩
  simp [hnxt, hisn, hpeer]

theorem ofNat_eq_ofNat {a b : Nat} (ha : a < 2 ^ 32) (hb : b < 2 ^ 32)
    (h : UInt32.ofNat a = UInt32.ofNat b) : a = b := by
  have := congrArg toNat h
  rw [toNat_ofNat', toNat_ofNat'] at this
  omega

/-- Something expected next that starts at offset `off` of the stream: no FIN was taken, and all
that is before it was. -/
theorem Synced.at_offset (h : Synced S i c tr) {off : Nat} (hoff : off ≤ S.bytes.length)
    (hnext : S.isn + 1 + UInt32.ofNat off = c.rcvNxt) :
    c.peerFin = false ∧ received i tr ++ c.rx.contents = S.bytes.take off := by
  obtain ⟨k, hk, hnxt, hbytes, hfin⟩ := h.taken
  have hshort := S.short
  have heq : ofNat off = ofNat k + (if c.peerFin then 1 else 0) := by
    rw [hnxt] at hnext
    grind
  have hpeer : c.peerFin = false := by
    -- past the FIN there is nothing left to accept
    by_contra hp
    rw [Bool.not_eq_false] at hp
    rw [hp, if_pos rfl, hfin hp] at heq
    have : off = S.bytes.length + 1 :=
      ofNat_eq_ofNat (by omega) (by omega) (heq.trans (ofNat_add _ 1).symm)
    omega
  rw [hpeer, if_neg (by decide), UInt32.add_zero] at heq
  obtain rfl := ofNat_eq_ofNat (by omega) (by omega) heq
  exact ⟨hpeer, hbytes⟩

theorem Synced.accept (h : Synced S i c tr) (hseg : S.Carries seg) (hrst : seg.isRst = false)
    (hin : c.InOrder seg) : Synced S i (c.accept seg hin) (.stored i seg c :: tr) where
  state := h.state
  taken := by
    obtain ⟨off, hoff, hpre⟩ := (hseg.resolve_left (by simp [hrst])).2.1 hin.1
    have hlen : seg.payload.length ≤ S.bytes.length - off := by
      simpa using hpre.length_le
    have hpos : 0 < seg.payload.length := length_pos_iff.2 hin.1
    have hnext := hoff.symm.trans hin.2.1
    obtain ⟨hpeer, hbytes⟩ := h.at_offset (by omega) hnext
    refine ⟨off + seg.payload.length, by omega, ?_, ?_, ?_⟩
    · show c.rcvNxt + seg.plen = S.isn + 1 + ofNat (off + seg.payload.length) +
        (if c.peerFin then 1 else 0)
      rw [hpeer, if_neg (by decide), ← hnext, Segment.plen, ofNat_add]
      grind
    · show received i tr ++ (c.rx.push seg.payload hin.2.2).contents = _
      rw [Ring.contents_push, ← append_assoc, hbytes, take_add]
      congr 1
      exact prefix_iff_eq_take.1 hpre
    · exact fun hp => absurd (hpeer.symm.trans hp) (by decide)

theorem Synced.acceptFin (h : Synced S i c tr) (hseg : S.Carries seg) (hrst : seg.isRst = false)
    (hnext : c.FinNext seg) : Synced S i c.acceptFin (.finSeen i seg c :: tr) where
  state := h.state
  taken := by
    have hend := (hseg.resolve_left (by simp [hrst])).2.2 hnext.1
    obtain ⟨hpeer, hbytes⟩ := h.at_offset le_rfl (hend.symm.trans hnext.2)
    refine ⟨S.bytes.length, le_rfl, ?_, hbytes, fun _ => rfl⟩
    show c.rcvNxt + 1 = S.isn + 1 + ofNat S.bytes.length + (if true then 1 else 0)
    rw [← hnext.2, hend]
    rfl

theorem Synced.drain (h : Synced S i c tr) {k : Nat} (hk : k ≤ c.rx.len) :
    Synced S i (c.drain k) (.received i (c.rx.peek k) :: tr) where
  state := h.state
  taken := by
    obtain ⟨m, hm, hnxt, hbytes, hfin⟩ := h.taken
    refine ⟨m, hm, hnxt, ?_, hfin⟩
    show received i (.received i (c.rx.peek k) :: tr) ++ (c.rx.pop k).contents = _
    rw [received, if_pos rfl, Ring.peek_eq_take _ hk, Ring.contents_pop, append_assoc,
      take_append_drop, hbytes]

end Synced

/-! ## Whole runs -/

/-- Where the connection stands in relation to the stream of its peer. -/
def Follows (S : Stream) (i : Slot) (c : TcpConn) (tr : List Event) : Prop :=
  FromPeer S i tr → NoLateData i tr → Unsynced i c tr ∨ Synced S i c tr

section Follows

variable {S : Stream} {i : Slot} {n : Stack} {es tr : List Event} {c : TcpConn}

theorem Unsynced.served (hs : Served n tr i es c) (h : Unsynced i (n.conns i) tr)
    (hfresh : Fresh i (n.conns i) tr) (hpeer : FromPeer S i (es ++ tr))
    (hlate : NoLateData i (es ++ tr)) : Unsynced i c (es ++ tr) ∨ Synced S i c (es ++ tr) := by
  cases hs with
  | sent | emitted | resend => exact .inl (h.log (by simp [opens, emits, isSilent]))
  | passive srcIp seg ns hfind hsyn hlisten =>
    have hmem : .passive i srcIp seg ∈ since i ([.passive i srcIp seg] ++ tr) := by
      simp [opens]
    exact .inr (.begin (hpeer.passive hmem) hsyn ⟨by rintro ⟨⟩, by rintro ⟨⟩, by rintro ⟨⟩⟩ rfl
      h.peerFin h.contents h.received)
  | answer srcIp seg bytes now hhead hstate => exact absurd hstate (h.state_ne (.inl rfl))
  | reset srcIp seg hfind hrst =>
    refine .inl (h.deliver (.inr rfl) rfl rfl rfl (fun _ => ?_) fun hr => ?_)
    · refine (h.found hfresh hfind hpeer).symm.imp_right fun hsent => ?_
      simp [dropsUnopened, hrst, hsent, h.peerFin]
    · rw [hrst] at hr
      exact absurd hr (by decide)
  | ack srcIp seg hfind hrst =>
    have hstate := ackUpdate_state_of_ne (n.conns i) seg (h.state_ne (.inl rfl))
    refine .inl (h.deliver (.inl hstate) (by simp) (by simp) (by simp)
      (fun hd => .inl (hstate ▸ hd)) ?_)
    intro _
    refine (h.found hfresh hfind hpeer).imp_right fun hdone => ?_
    -- to a connection that is done nothing may be delivered that would be accepted
    obtain ⟨e, he, hdrop⟩ := h.done hdone
    have := hlate ⟨e, mem_since_append (by simp [opens]) he, hdrop⟩
      (.delivered i srcIp seg (n.conns i)) (by simp [opens])
    simpa [isLate, hrst, hdone] using this
  | synAck srcIp seg d tr' htr hd hrst hstate hsyn hack =>
    have hmem : .delivered i srcIp seg d ∈ since i tr := by
      simp [htr, opens]
    exact .inr (.begin (hpeer.delivered hmem).1 hsyn ⟨by rintro ⟨⟩, by rintro ⟨⟩, by rintro ⟨⟩⟩ rfl
      h.peerFin h.contents h.received)
  | accept srcIp seg d hmem hrst hd hin =>
    obtain hsent | hlater := h.harmless srcIp seg d hmem hrst
    · exact absurd hsent hd
    · exact absurd (.inl ⟨hin.1, hin.2.1.trans h.rcvNxt⟩) hlater
  | acceptFin srcIp seg d hmem hrst hd hnext =>
    obtain hsent | hlater := h.harmless srcIp seg d hmem hrst
    · exact absurd hsent hd
    · exact absurd (.inr ⟨hnext.1, hnext.2.trans h.rcvNxt⟩) hlater
  | finish seg d hmem hd hstate =>
    exact absurd hstate (h.state_ne (.inr (.inr rfl)))
  | closed hstate => exact absurd hstate (h.state_ne (.inr (.inr rfl)))
  | giveUp hretx =>
    have hstate : (n.conns i).state = .done ∨ (n.conns i).state = .synSent := by
      obtain hs | hs | hs | hs := h.state
      · exact absurd (hfresh.closed hs).2 hretx
      · exact absurd (hfresh.listen hs).1 hretx
      · exact .inr hs
      · exact .inl hs
    refine .inl (h.step (by simp [opens]) (.inr rfl) rfl rfl rfl rfl (fun _ => .inl) ?_ (by simp))
    intro _
    refine hstate.imp_right fun hsent => ⟨_, mem_singleton_self _, ?_⟩
    simp [dropsUnopened, hsent, h.peerFin]

theorem Synced.served (hs : Served n tr i es c) (h : Synced S i (n.conns i) tr)
    (hpeer : FromPeer S i (es ++ tr)) : Synced S i c (es ++ tr) := by
  have hold := hpeer.of_append hs.opens
  cases hs with
  | passive srcIp seg ns hfind hsyn hlisten =>
    exact absurd (Stack.listener_spec hlisten).2.1 h.state.2.1
  | synAck srcIp seg d tr' htr hd hrst hstate => exact absurd hstate h.state.2.2
  | accept srcIp seg d hmem hrst hd hin => exact h.accept (hold.delivered hmem).1 hrst hin
  | acceptFin srcIp seg d hmem hrst hd hnext => exact h.acceptFin (hold.delivered hmem).1 hrst hnext
  | reset | giveUp | finish | closed => exact h.congr (.inr ⟨nofun, nofun, nofun⟩)
  | answer => exact h.congr (.inl (by simp))
  | ack srcIp seg hfind hrst =>
    refine h.congr ?_
    rw [ackUpdate_state]
    split
    · exact .inr ⟨nofun, nofun, nofun⟩
    · exact .inl rfl
  | sent | emitted | resend => exact h.congr (.inl rfl)

theorem Acted.unsynced (ha : Acted n tr i es c) :
    Unsynced i c (es ++ tr) ∨ ∀ e ∈ es, e.opens i = false := by
  cases ha with
  | connect | listen =>
    refine .inl ⟨?_, rfl, rfl, rfl, by simp [received], by simp [lastEmit], by rintro ⟨⟩,
      by simp [opens]⟩
    simp [TcpConn.connecting, TcpConn.listening]
  | _ => exact .inr (by simp [opens])

theorem Unsynced.acted (ha : Acted n tr i es c) (ho : ∀ e ∈ es, e.opens i = false)
    (h : Unsynced i (n.conns i) tr) : Unsynced i c (es ++ tr) := by
  cases ha with
  | connect | listen => simp [opens] at ho
  | emit flags len bytes now hemits hbytes =>
    cases hemits with
    | syn conns hhead hstate =>
      have hkeep := record_state (n.conns i) tcpSyn 0 bytes now
      refine h.step (by simp [opens]) (.inl hkeep) (by simp) (by simp) (by simp) rfl ?_
        (fun hd => .inl (hkeep ▸ hd)) (by simp)
      intro v hv
      simp only [cons_append, nil_append, lastEmit, if_true, Option.some.injEq] at hv
      exact .inr (by rw [← hv])
    | first _ _ _ _ _ _ hstate | next _ _ hstate | fin _ _ _ _ hstate =>
      exact absurd hstate (h.state_ne (.inr (.inl rfl)))
  | waitFin d hfly huse hdrop =>
    have hsyn : tcpFin ||| tcpAckFlag = tcpSyn := h.last _ hfly.last
    exact absurd hsyn (by decide)
  | drain k hk =>
    -- there is nothing to return
    have hlen : (n.conns i).rx.len = 0 := by rw [← Ring.length_contents, h.contents]; rfl
    obtain rfl : k = 0 := by omega
    refine h.step (by simp [opens]) (.inl rfl) rfl rfl (Ring.contents_pop _ 0) ?_ (fun _ => .inl)
      .inl (by simp)
    show Net.received i (.received i [] :: tr) = _
    simp [Net.received]
  | emitted | release => exact h.log (by simp [opens, emits, isSilent])

theorem Synced.acted (ha : Acted n tr i es c) (ho : ∀ e ∈ es, e.opens i = false)
    (h : Synced S i (n.conns i) tr) : Synced S i c (es ++ tr) := by
  cases ha with
  | connect | listen => simp [opens] at ho
  | drain k hk => exact h.drain hk
  | waitFin => exact h.congr (.inr ⟨by rintro ⟨⟩, by rintro ⟨⟩, by rintro ⟨⟩⟩)
  | emit => exact h.congr (.inl (by simp))
  | emitted | release => exact h.congr (.inl rfl)

end Follows

theorem follows_tracked (S : Stream) (i : Slot) :
    Tracked i fun c tr => Fresh i c tr ∧ Follows S i c tr where
  zero := ⟨(fresh_tracked i).zero, fun _ _ =>
    .inl ⟨.inl rfl, rfl, rfl, rfl, rfl, nofun, nofun, nofun⟩⟩
  skips c e tr he h := by
    refine ⟨(fresh_tracked i).skips c e tr he h.1, fun hpeer hlate => ?_⟩
    have ho : ∀ a ∈ [e], a.opens i = false := forall_mem_singleton.2 (of_slot_ne he).1
    have hsilent : ∀ a ∈ [e], a.isSilent i = true :=
      forall_mem_singleton.2 (isSilent_of_slot_ne he)
    obtain hu | hs := h.2 (FromPeer.of_append ho hpeer) (NoLateData.of_append ho hlate)
    · refine .inl (hu.log (forall_mem_singleton.2 ?_))
      refine ⟨(of_slot_ne he).1, (of_slot_ne he).2.1, isSilent_of_slot_ne he, ?_⟩
      rintro srcIp seg d rfl
      exact he rfl
    · exact .inr (hs.congr (.inl rfl) hsilent)
  served n tr es c hs h := by
    refine ⟨(fresh_tracked i).served n tr es c hs h.1, fun hpeer hlate => ?_⟩
    obtain hu | hsync := h.2 (hpeer.of_append hs.opens) (hlate.of_append hs.opens)
    · exact hu.served hs h.1 hpeer hlate
    · exact .inr (hsync.served hs hpeer)
  acted n tr es c ha h := by
    refine ⟨(fresh_tracked i).acted n tr es c ha h.1, fun hpeer hlate => ?_⟩
    obtain hnew | ho := ha.unsynced
    · exact .inl hnew
    · exact (h.2 (hpeer.of_append ho) (hlate.of_append ho)).imp (·.acted ha ho) (·.acted ha ho)

/-- **What is received.** All segments for the connection come from a peer that sends the stream
`S`; they may be lost, repeated, reordered, overlap and be cut in any way, and be handled at any
point at which the pump runs. If no data and no FIN at sequence number 0 is delivered to the
connection after it was reset or given up before the peer's SYN, then what `net_tcp_recv` has
returned is a prefix of the stream, and `peer_fin` is set only once all of the stream is in the
ring or returned. -/
theorem run_receives_stream {x : Point} (hrun : Visited x) (i : Slot) (S : Stream)
    (hpeer : FromPeer S i x.trace) (hlate : NoLateData i x.trace) :
    received i x.trace <+: S.bytes ∧
    ((x.state.conns i).peerFin = true →
      received i x.trace ++ (x.state.conns i).rx.contents = S.bytes) := by
  obtain hu | hs := (hrun.stepped.track (follows_tracked S i)).2 hpeer hlate
  · refine ⟨by rw [hu.received]; exact nil_prefix, fun hp => ?_⟩
    rw [hu.peerFin] at hp
    exact absurd hp (by decide)
  · obtain ⟨k, hk, _, hbytes, hfin⟩ := hs.taken
    refine ⟨(prefix_append _ _).trans (hbytes ▸ take_prefix k _), fun hp => ?_⟩
    rw [hbytes, hfin hp, take_length]

/-- The peer sends two bytes, and the host asks for them. -/
def dataReceived : List Move :=
  connected ++ [.call .poll, peerSends 5001 1 tcpAckFlag [7, 8], .sent true, .idle, .clock 10,
    .call (.tcpRecv 0 10 1000), .clock 11]

/-- Two bytes of the three arrive and are read. -/
theorem run_receives_stream_data :
    FromPeer ⟨5000, [7, 8, 9], by decide⟩ 0 (play hostMac 1000 dataReceived).trace ∧
    received 0 (play hostMac 1000 dataReceived).trace = [7, 8] ∧
    received 0 (play hostMac 1000 dataReceived).trace <+: [7, 8, 9] := by
  have harrivals : (since 0 (play hostMac 1000 dataReceived).trace).filterMap (arrival 0) =
      [(peerIp, ⟨80, hostPort, 5001, 1, tcpAckFlag, [7, 8]⟩),
        (peerIp, ⟨80, hostPort, 5000, 1, tcpSyn ||| tcpAckFlag, []⟩)] := by
    decide +kernel
  have hpeer : FromPeer ⟨5000, [7, 8, 9], by decide⟩ 0 (play hostMac 1000 dataReceived).trace := by
    intro p hp
    rw [harrivals, mem_cons, mem_singleton] at hp
    obtain rfl | rfl := hp
    · exact ⟨.inr ⟨by decide, fun _ => ⟨0, by decide, by decide⟩, by decide⟩, by decide⟩
    · exact ⟨.inr ⟨by decide, fun h => absurd rfl h, by decide⟩, by decide⟩
  have hlate : NoLateData 0 (play hostMac 1000 dataReceived).trace := by
    rintro ⟨e, he, hd⟩
    have hnone : ∀ e ∈ since 0 (play hostMac 1000 dataReceived).trace,
        e.dropsUnopened 0 = false := by
      decide +kernel
    rw [hnone e he] at hd
    exact absurd hd (by decide)
  have hdata : received 0 (play hostMac 1000 dataReceived).trace = [7, 8] := by decide +kernel
  exact ⟨hpeer, hdata,
    (run_receives_stream (visited_play hostMac 1000 dataReceived) 0 _ hpeer hlate).1⟩

/-- While the address of the gateway is not resolved: nothing arrives, the timer sends the SYN
again, and that waits for the address in turn. -/
def resendsAt (t : UInt64) : List Move := [.clock t, .idle, .clock t, .sent true, .clock t]

/-- The gateway does not answer until the SYN, whose transmission still waits for it, is given up;
then one byte arrives from the peer and all the waits come to an end. -/
def givenUpUnopened : List Move :=
  [configure gatewayIp, .call (.tcpConnect peerIp 80 1000), .clock 0, .clock 0, .sent true,
    .clock 0] ++
  [400, 800, 1200, 1600, 2000, 2400].flatMap resendsAt ++
  [.clock 2800, .idle, .clock 2800, .clock 2900, peerSends 0 1 tcpAckFlag [20], .sent true,
    .clock 2900, .clock 3900, .idle, .clock 2900] ++
  List.replicate 8 (.clock 3900) ++ [.call (.tcpRecv 0 10 1000), .clock 3900]

/-- `net_tcp_connect` returns the connection, and `net_tcp_recv` the second byte of the stream
as the first. -/
theorem receives_out_of_order : ∃ x S, Visited x ∧ FromPeer S 0 x.trace ∧
    received 0 x.trace = [20] ∧ S.bytes = [10, 20] ∧ ¬received 0 x.trace <+: S.bytes := by
  have harrivals : (since 0 (play hostMac 2000 givenUpUnopened).trace).filterMap
      (arrival 0) = [(peerIp, ⟨80, hostPort, 0, 1, tcpAckFlag, [20]⟩)] := by
    decide +kernel
  have hdata : received 0 (play hostMac 2000 givenUpUnopened).trace = [20] := by decide +kernel
  refine ⟨_, ⟨0xFFFFFFFE, [10, 20], by decide⟩, visited_play hostMac 2000 givenUpUnopened, ?_,
    hdata, rfl, ?_⟩
  · intro p hp
    rw [harrivals, mem_singleton] at hp
    subst hp
    exact ⟨.inr ⟨by decide, fun _ => ⟨1, by decide, by decide⟩, by decide⟩, by decide⟩
  · rw [hdata]
    decide

end JuampiOs.Net
