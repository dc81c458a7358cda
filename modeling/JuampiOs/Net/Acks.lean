import JuampiOs.Net.Runs

/-!
# Acknowledgement numbers

`tcp_input` takes any acknowledgement number: it compares it with what is outstanding and with
`snd_una`, but never with `snd_nxt`. The send window of a connection stays in order
(`Windowed`) as long as no segment acknowledges more than was sent, the answer to a SYN
acknowledges exactly the SYN, and less than half of the sequence space is unacknowledged.
-/

namespace JuampiOs.Net

open Lib Lib.Lang TcpConn

/-! ## Sequence order -/

theorem seqLt_iff (a b : UInt32) : seqLt a b = true ↔ 2 ^ 31 ≤ (a - b).toNat := by
  rw [seqLt, decide_eq_true_iff, Int32.lt_iff_toInt_lt]
  show (a - b).toInt32.toBitVec.toInt < 0 ↔ _
  rw [BitVec.toInt_neg_iff]
  show 2 ^ 32 ≤ 2 * (a - b).toNat ↔ _
  omega

theorem seqLt_eq_false_iff (a b : UInt32) : seqLt a b = false ↔ (a - b).toNat < 2 ^ 31 := by
  rw [← Bool.not_eq_true, seqLt_iff, Nat.not_le]

theorem seqLt_irrefl (a : UInt32) : seqLt a a = false := by
  rw [seqLt_eq_false_iff, UInt32.sub_self]
  decide

/-- Two sequence numbers neither of which is before the other are the same. -/
theorem eq_of_seqLt_eq_false {a b : UInt32} (hab : seqLt a b = false) (hba : seqLt b a = false) :
    a = b := by
  rw [seqLt_eq_false_iff, UInt32.toNat_sub] at hab hba
  have ha := a.toNat_lt
  have hb := b.toNat_lt
  apply UInt32.toNat.inj
  omega

theorem seqLt_of_ne {a b : UInt32} (h : (b - a).toNat < 2 ^ 31) (hne : a ≠ b) :
    seqLt a b = true := by
  by_contra hlt
  rw [Bool.not_eq_true] at hlt
  exact hne (eq_of_seqLt_eq_false hlt ((seqLt_eq_false_iff b a).2 h))

theorem toNat_add_sub {a b : UInt32} {k : Nat} (h : (a - b).toNat + k < 2 ^ 31) :
    (a + UInt32.ofNat k - b).toNat = (a - b).toNat + k := by
  have hab : a + UInt32.ofNat k - b = (a - b) + UInt32.ofNat k := by grind
  rw [hab, UInt32.toNat_add, UInt32.toNat_ofNat']
  omega

/-! ## The send window -/

/-- What is unacknowledged is less than half of the sequence space, and an outstanding segment
ends it. -/
structure Windowed (c : TcpConn) : Prop where
  ordered : (c.sndNxt - c.sndUna).toNat < 2 ^ 31
  outstanding : c.retxLen ≠ 0 → c.retxSeq = c.sndNxt ∧ c.sndUna ≠ c.sndNxt

/-- A segment that acknowledges nothing that was not sent and, in SYN_SENT, the SYN; and a
segment that is sent with room in the window. -/
def Event.Acceptable : Event → Prop
  | .delivered _ _ seg c => seg.isRst = false → seg.isAck = true →
      seqLt c.sndNxt seg.ack = false ∧
        (c.state = .synSent → seg.isSyn = true → seg.ack = c.sndNxt)
  | .emit _ flags len c => (c.sndNxt - c.sndUna).toNat + TcpConn.consumed flags len < 2 ^ 31
  | _ => True

instance : DecidablePred Event.Acceptable := fun e => by
  unfold Event.Acceptable
  split <;> infer_instance

section Window

variable {c : TcpConn} {seg : Segment}

theorem Windowed.ackUpdate (h : Windowed c)
    (hack : seg.isAck = true → seqLt c.sndNxt seg.ack = false) : Windowed (c.ackUpdate seg) where
  ordered := by
    rw [ackUpdate_sndNxt, ackUpdate_sndUna]
    split
    · rename_i hmove
      rw [Bool.and_eq_true] at hmove
      exact (seqLt_eq_false_iff _ _).1 (hack hmove.1)
    · exact h.ordered
  outstanding := by
    rw [ackUpdate_retxLen, ackUpdate_retxSeq, ackUpdate_sndNxt, ackUpdate_sndUna]
    intro hlen
    have hrel : ¬c.releases seg = true := fun hrel => hlen (if_pos hrel)
    rw [if_neg hrel] at hlen
    obtain ⟨hseq, hne⟩ := h.outstanding hlen
    refine ⟨hseq, ?_⟩
    split
    · -- an acknowledgement of everything would have released the segment
      rename_i hmove
      rw [Bool.and_eq_true] at hmove
      intro heq
      refine hrel ?_
      simp [releases, hmove.1, hlen, hseq, heq, seqLt_irrefl]
    · exact hne

theorem Windowed.record {flags : UInt8} {len : Nat} (bytes : List UInt8) (now : UInt64)
    (h : Windowed c) (hroom : (c.sndNxt - c.sndUna).toNat + TcpConn.consumed flags len < 2 ^ 31) :
    Windowed (c.record flags len bytes now) := by
  by_cases hcons : consumed flags len = 0
  · rw [TcpConn.record, if_neg (not_not.2 hcons)]
    exact h
  obtain ⟨_, hseq, hnxt⟩ := c.record_outstanding flags len bytes now hcons
  have hwin := toNat_add_sub hroom
  refine ⟨?_, fun _ => ⟨hseq.trans hnxt.symm, ?_⟩⟩
  · rw [hnxt, record_sndUna, hwin]
    exact hroom
  · rw [hnxt, record_sndUna]
    intro heq
    rw [← heq, UInt32.sub_self] at hwin
    have : (0 : UInt32).toNat = 0 := rfl
    omega

theorem Windowed.of_fresh (hnxt : c.sndNxt = c.sndUna) (hlen : c.retxLen = 0) : Windowed c where
  ordered := by
    rw [hnxt, UInt32.sub_self]
    decide
  outstanding h := absurd hlen h

theorem Windowed.congr {c' : TcpConn} (h : Windowed c) (hnxt : c'.sndNxt = c.sndNxt)
    (huna : c'.sndUna = c.sndUna) (hseq : c'.retxSeq = c.retxSeq)
    (hlen : c'.retxLen = c.retxLen ∨ c'.retxLen = 0) : Windowed c' where
  ordered := by rw [hnxt, huna]; exact h.ordered
  outstanding hne := by
    rw [hseq, hnxt, huna]
    exact h.outstanding (hlen.elim (· ▸ hne) fun h0 => absurd h0 hne)

end Window

/-- **The send window of a connection in a run whose segments are acceptable.** -/
theorem windowed_tracked (i : Slot) :
    Tracked i fun c tr => Fresh i c tr ∧ ((∀ e ∈ tr, e.Acceptable) → Windowed c) where
  zero := ⟨(fresh_tracked i).zero, fun _ => .of_fresh rfl rfl⟩
  skips c e tr he h :=
    ⟨(fresh_tracked i).skips c e tr he h.1, fun hok => h.2 fun a ha => hok a (by simp [ha])⟩
  served n tr es c hs h := by
    refine ⟨(fresh_tracked i).served n tr es c hs h.1, fun hok => ?_⟩
    have hwin := h.2 fun a ha => hok a (by simp [ha])
    cases hs with
    | passive srcIp seg ns hfind hsyn hlisten =>
      exact .of_fresh rfl (h.1.listen (Stack.listener_spec hlisten).2.1).1
    | answer srcIp seg bytes now hhead hstate =>
      exact hwin.record bytes now (hok (.emit i (tcpSyn ||| tcpAckFlag) 0 (n.conns i)) (by simp))
    | ack srcIp seg hfind hrst =>
      exact hwin.ackUpdate fun hack =>
        (hok (.delivered i srcIp seg (n.conns i)) (by simp) hrst hack).1
    | reset | giveUp => exact hwin.congr rfl rfl rfl (.inr rfl)
    | _ => exact hwin.congr rfl rfl rfl (.inl rfl)
  acted n tr es c ha h := by
    refine ⟨(fresh_tracked i).acted n tr es c ha h.1, fun hok => ?_⟩
    have hwin := h.2 fun a ha => hok a (by simp [ha])
    cases ha with
    | connect | listen => exact .of_fresh rfl rfl
    | emit flags len bytes now hemits hbytes =>
      exact hwin.record bytes now (hok (.emit i flags len (n.conns i)) (by simp))
    | _ => exact hwin.congr rfl rfl rfl (.inl rfl)

/-! ## What releases a segment and what completes an open -/

section Steps

variable {i : Slot} {es : List Event} {x y : Point}

/-- An outstanding segment goes with the connection or by an acknowledgement that covers it. -/
theorem Api.freed (h : Api x y) (hfresh : Fresh i (x.state.conns i) x.trace)
    (huse : (x.state.conns i).inUse = true) (hretx : (x.state.conns i).retxLen ≠ 0)
    (hgone : (y.state.conns i).retxLen = 0) :
    (∃ e, y.trace = e :: x.trace ∧ e.drops i = true) ∨
    ∃ srcIp seg, y.trace = .delivered i srcIp seg (x.state.conns i) :: x.trace ∧
      seg.isRst = false ∧ (x.state.conns i).releases seg = true := by
  obtain heq | ⟨es, hy, hs | ha⟩ := h.at_slot i
  · exact absurd (heq ▸ hgone) hretx
  · obtain ⟨srcIp, seg, ns, rfl, hlisten, _⟩ | ⟨srcIp, seg, bytes, now, hhead, _⟩ |
      ⟨_, _, _, _, hlen | ⟨srcIp, seg, rfl, hrst, hrel, _⟩ | ⟨e, rfl, hd, _⟩⟩ := hs.outstanding
    · exact absurd (hfresh.listen (Stack.listener_spec hlisten).2.1).1 hretx
    · exact absurd (hfresh.passive srcIp seg hhead) hretx
    · exact absurd (hlen ▸ hgone) hretx
    · exact .inr ⟨srcIp, seg, hy, hrst, hrel⟩
    · exact .inl ⟨e, hy, hd⟩
  · generalize y.state.conns i = c at ha hgone
    cases ha with
    | connect _ _ _ hfree | listen _ hfree => exact absurd huse (by simp [hfree])
    | emit flags len bytes now hemits hbytes =>
      by_cases hcons : consumed flags len = 0
      · rw [record, if_neg (not_not.2 hcons)] at hgone
        exact absurd hgone hretx
      · rw [((x.state.conns i).record_outstanding flags len bytes now hcons).1] at hgone
        exact absurd (List.length_eq_zero_iff.1 hgone) hbytes
    | _ => exact absurd hgone hretx

theorem Api.completes (h : Api x y) (hsent : (x.state.conns i).state = .synSent)
    (hest : (y.state.conns i).state = .established) :
    ∃ srcIp seg c tr, x.trace = .delivered i srcIp seg c :: tr ∧
      x.state.conns i = c.ackUpdate seg ∧ seg.isRst = false ∧ seg.isSyn = true ∧
      seg.isAck = true := by
  obtain heq | ⟨es, _, hs | ha⟩ := h.at_slot i
  · rw [heq, hsent] at hest
    exact absurd hest (by decide)
  · generalize y.state.conns i = c at hs hest
    cases hs with
    | synAck srcIp seg c tr htr hc hrst hstate hsyn hack =>
      exact ⟨srcIp, seg, c, tr, htr, hc, hrst, hsyn, hack⟩
    | passive srcIp seg ns hfind hsyn hlisten =>
      rw [(Stack.listener_spec hlisten).2.1] at hsent
      exact absurd hsent (by decide)
    | answer srcIp seg bytes now hhead hstate =>
      rw [hstate] at hsent
      exact absurd hsent (by decide)
    | ack srcIp seg hfind hrst =>
      rw [ackUpdate_state_of_ne _ _ (by rw [hsent]; decide), hsent] at hest
      exact absurd hest (by decide)
    | reset | giveUp | finish | closed => exact absurd hest (by simp)
    | _ => exact absurd (hsent.symm.trans hest) (by decide)
  · generalize y.state.conns i = c at ha hest
    cases ha with
    | connect | listen => exact absurd hest nofun
    | waitFin => exact absurd hest (by simp)
    | emit flags len bytes now hemits hbytes =>
      rw [record_state, hsent] at hest
      exact absurd hest (by decide)
    | _ => exact absurd (hsent.symm.trans hest) (by decide)

end Steps

/-- **Acceptable acknowledgements.** In a run in which no segment acknowledges more than was
sent, the answer to a SYN acknowledges the SYN, and fewer than `2 ^ 31` numbers are ever
unacknowledged: `snd_una` is not past `snd_nxt`; an outstanding segment is released by an
acknowledgement number in `(snd_una, snd_nxt]` or goes with a reset or given up connection; and
an active open is completed by a SYN-ACK that acknowledges `snd_nxt`. -/
theorem run_acks_acceptable {x : Point} (hrun : Visited x) (hok : ∀ e ∈ x.trace, e.Acceptable)
    (i : Slot) :
    seqLt (x.state.conns i).sndNxt (x.state.conns i).sndUna = false ∧
    ∀ y, Moves x y → (∀ e ∈ y.trace, e.Acceptable) →
      ((x.state.conns i).inUse = true → (x.state.conns i).retxLen ≠ 0 →
        (y.state.conns i).retxLen = 0 →
        (∃ e, y.trace = e :: x.trace ∧ e.drops i = true) ∨
        ∃ srcIp seg, y.trace = .delivered i srcIp seg (x.state.conns i) :: x.trace ∧
          seg.isAck = true ∧ seqLt (x.state.conns i).sndUna seg.ack = true ∧
          seqLt (x.state.conns i).sndNxt seg.ack = false) ∧
      ((x.state.conns i).state = .synSent → (y.state.conns i).state = .established →
        ∃ srcIp seg c tr, x.trace = .delivered i srcIp seg c :: tr ∧ seg.isSyn = true ∧
          seg.isAck = true ∧ seg.ack = (x.state.conns i).sndNxt) := by
  obtain ⟨hfresh, hwin⟩ := hrun.stepped.track (windowed_tracked i)
  have hwin := hwin hok
  refine ⟨(seqLt_eq_false_iff _ _).2 hwin.ordered, fun y hxy hyok => ?_⟩
  obtain rfl | hxy := moves_step hxy
  · refine ⟨fun _ hne h0 => absurd h0 hne, fun hs he => ?_⟩
    rw [hs] at he
    exact absurd he (by decide)
  refine ⟨fun huse hretx hgone => ?_, fun hsent hest => ?_⟩
  · obtain hd | ⟨srcIp, seg, hy, hrst, hrel⟩ := hxy.freed hfresh huse hretx hgone
    · exact .inl hd
    · simp only [releases, Bool.and_eq_true, Bool.not_eq_true'] at hrel
      obtain ⟨hseq, hne⟩ := hwin.outstanding hretx
      have hle := (hyok (.delivered i srcIp seg (x.state.conns i)) (by simp [hy]) hrst hrel.1.1).1
      -- the acknowledgement covers all that was sent, and no more
      have hall : seg.ack = (x.state.conns i).sndNxt := eq_of_seqLt_eq_false (hseq ▸ hrel.2) hle
      refine .inr ⟨srcIp, seg, hy, hrel.1.1, ?_, hle⟩
      rw [hall]
      exact seqLt_of_ne hwin.ordered hne
  · obtain ⟨srcIp, seg, c, tr, htr, hc, hrst, hsyn, hack⟩ := hxy.completes hsent hest
    refine ⟨srcIp, seg, c, tr, htr, hsyn, hack, ?_⟩
    have hstate : c.state = .synSent := by
      rw [hc] at hsent
      exact ackUpdate_state_eq c seg (by decide) hsent
    rw [hc, ackUpdate_sndNxt]
    exact (hok (.delivered i srcIp seg c) (by simp [htr]) hrst hack).2 hstate hsyn

/-- The handshake of `connected` is acceptable. -/
theorem run_acks_acceptable_connected :
    (∀ e ∈ (play hostMac 1000 connected).trace, e.Acceptable) ∧
    seqLt ((play hostMac 1000 connected).state.conns 0).sndNxt
      ((play hostMac 1000 connected).state.conns 0).sndUna = false := by
  have hok : ∀ e ∈ (play hostMac 1000 connected).trace, e.Acceptable := by decide +kernel
  exact ⟨hok, (run_acks_acceptable (visited_play hostMac 1000 connected) hok 0).1⟩

/-- The peer answers the SYN with an acknowledgement of 99 bytes that were never sent. -/
def ackedTooMuch : List Move :=
  connecting ++ [peerSends 5000 100 (tcpSyn ||| tcpAckFlag) [], .sent true, .idle, .clock 3,
    .clock 3]

/-- The connection is established, with `snd_una` past `snd_nxt`. -/
theorem acks_unsent : ∃ x, Visited x ∧ (x.state.conns 0).inUse = true ∧
    (x.state.conns 0).state = .established ∧
    seqLt (x.state.conns 0).sndNxt (x.state.conns 0).sndUna = true := by
  refine ⟨play hostMac 1000 ackedTooMuch, visited_play hostMac 1000 ackedTooMuch, ?_⟩
  decide +kernel

end JuampiOs.Net
