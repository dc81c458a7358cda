import JuampiOs.Net.Meets

/-!
# The calls keep to the contract

The functions of the public interface, checked against `contract` like the pump before them.
The one with an argument in it is `net_tcp_send`: `InFlight` follows the segment it has sent
through the pump, while `tcp_emit` still transmits and while the loop waits, and says what has
become of it when it is no longer outstanding. With every body checked (`met`), the points the
kernel visits are those the step relation reaches (`visited_steps`).
-/

namespace JuampiOs.Net

open Lib Lib.Lang Contract List Event TcpConn Stack

/-! ## A segment on its way -/

section InFlight

variable {i : Slot} {es tr : List Event} {v : UInt8 × Nat × TcpConn} {n : Stack} {c : TcpConn}
  {x y : Point}

theorem InFlight.append (hes : ∀ e ∈ es, e.opens i = false ∧ e.emits i = false)
    (h : InFlight i v c tr) : InFlight i v c (es ++ tr) :=
  ⟨h.listen, h.synRcvd, (lastEmit_append hes tr).trans h.last, h.nxt,
    h.fate.imp_right (Or.imp (·.append hes) (·.append hes))⟩

theorem InFlight.skips : Skips i (InFlight i v) := by
  intro c ev tr hev h
  obtain ⟨ho, he, _⟩ := of_slot_ne hev
  exact h.append (forall_mem_singleton.2 ⟨ho, he⟩)

theorem Served.past (hs : Served n tr i es c) (hl : (n.conns i).state ≠ .listen)
    (hr : (n.conns i).state ≠ .synRcvd) : c.state ≠ .listen ∧ c.state ≠ .synRcvd := by
  cases hs with
  | passive srcIp seg ns hfind hsyn hlisten => exact absurd (listener_spec hlisten).2.1 hl
  | answer srcIp seg bytes now hhead hstate => exact absurd hstate hr
  | ack srcIp seg hfind hrst =>
    rw [ackUpdate_state_of_ne _ _ hr]
    exact ⟨hl, hr⟩
  | synAck | finish | closed | reset | giveUp => simp
  | _ => exact ⟨hl, hr⟩

theorem Served.silent (hs : Served n tr i es c) (hl : (n.conns i).state ≠ .listen)
    (hr : (n.conns i).state ≠ .synRcvd) : ∀ e ∈ es, e.opens i = false ∧ e.emits i = false := by
  obtain ⟨_, _, _, _, hlisten, _⟩ | ⟨_, _, _, _, _, hstate, _⟩ | ⟨_, _, _, hes, _⟩ := hs.outstanding
  · exact absurd (listener_spec hlisten).2.1 hl
  · exact absurd hstate hr
  · exact hes

theorem InFlight.served (hs : Served n tr i es c) (h : InFlight i v (n.conns i) tr) :
    InFlight i v c (es ++ tr) := by
  obtain ⟨hl, hr⟩ := hs.past h.listen h.synRcvd
  obtain ⟨_, _, _, _, hlisten, _⟩ | ⟨_, _, _, _, _, hstate, _⟩ | ⟨hnxt, hseq, _, hes, hfate⟩ :=
    hs.outstanding
  · exact absurd (listener_spec hlisten).2.1 h.listen
  · exact absurd hstate h.synRcvd
  refine ⟨hl, hr, (lastEmit_append hes tr).trans h.last, hnxt.trans h.nxt, ?_⟩
  rw [hnxt, hseq]
  obtain hout | hack | hdrop := h.fate
  · -- it was outstanding: it still is, or this piece released it or gave it up
    obtain hlen | ⟨srcIp, seg, rfl, hrst, hrel, _⟩ | ⟨ev, rfl, hd, rfl⟩ := hfate
    · exact .inl ⟨hlen ▸ hout.1, hout.2⟩
    · simp only [releases, Bool.and_eq_true, Bool.not_eq_true'] at hrel
      refine .inr (.inl ⟨srcIp, seg, n.conns i, ?_, hrst, hrel.1.1, hout.2 ▸ hrel.2⟩)
      rw [sinceEmit_append hes]
      simp
    · refine .inr (.inr ⟨ev, ?_, hd⟩)
      rw [sinceEmit_append hes]
      simp
  · exact .inr (.inl (hack.append hes))
  · exact .inr (.inr (hdrop.append hes))

theorem InFlight.pumps (h : Pumps x y) (hx : InFlight i v (x.state.conns i) x.trace) :
    InFlight i v (y.state.conns i) y.trace :=
  h.track InFlight.skips (fun _ _ _ _ hs => InFlight.served hs) hx

theorem InFlight.emitting (h : Pumps x y) (hv : v.1 ≠ tcpSyn ||| tcpAckFlag)
    (hx : InFlight i v (x.state.conns i) x.trace) (he : emitting i x.trace = true) :
    emitting i y.trace = true := by
  refine (h.track (i := i) (I := fun c tr => InFlight i v c tr ∧ Net.emitting i tr = true)
    ?_ ?_ ⟨hx, he⟩).2
  · intro c ev tr hev hI
    refine ⟨InFlight.skips c ev tr hev hI.1, ?_⟩
    cases ev <;> simp_all [slot, Net.emitting]
  · intro n tr es c hs hI
    refine ⟨InFlight.served hs hI.1, ?_⟩
    cases hs with
    | emitted c hlast =>
      rw [hI.1.last, Option.some.injEq] at hlast
      exact absurd (congrArg Prod.fst hlast) hv
    | answer srcIp seg bytes now hhead hstate => exact absurd hstate hI.1.synRcvd
    | _ => simpa [Net.emitting] using hI.2

theorem InFlight.returned (h : InFlight i v (x.state.conns i) x.trace) :
    InFlight i v (x.state.conns i) (.emitted i :: x.trace) :=
  h.append (forall_mem_singleton.2 ⟨rfl, rfl⟩)

/-- Waiting for a segment: if the connection was finished at once, that shows, or it happened
before. -/
theorem InFlight.done (h : Pumps x y) {P : Prop} (hx : InFlight i v (x.state.conns i) x.trace)
    (hP : DropSeen i x.trace → P) (hy : DropSeen i y.trace) :
    P ∨ (y.state.conns i).state = .done := by
  refine (h.track (i := i) (I := fun c tr => InFlight i v c tr ∧
    (DropSeen i tr → P ∨ c.state = .done)) ?_ ?_ ⟨hx, fun hd => .inl (hP hd)⟩).2 hy
  · intro c ev tr hev hI
    refine ⟨InFlight.skips c ev tr hev hI.1, fun hd => hI.2 ?_⟩
    obtain ⟨ho, he, hnd⟩ := of_slot_ne hev
    obtain ⟨e, hmem, hdrops⟩ | hd :=
      DropSeen.of_append (forall_mem_singleton.2 ⟨ho, he⟩) hd
    · rw [mem_singleton.1 hmem, hnd] at hdrops
      exact absurd hdrops (by decide)
    · exact hd
  · intro n tr es c hs hI
    refine ⟨InFlight.served hs hI.1, fun hd => ?_⟩
    by_cases hnew : ∃ e ∈ es, e.drops i = true
    · obtain ⟨e, hmem, hdrops⟩ := hnew
      exact .inr (hs.done_of_drops hmem hdrops)
    · have hes := hs.silent hI.1.listen hI.1.synRcvd
      exact (hI.2 ((DropSeen.of_append hes hd).resolve_left hnew)).imp_right hs.done

end InFlight

/-! ## Sending -/

theorem work_pump : ∀ y z, Pump y z → Work y z := fun _ _ => .pump

variable {x : Point} {i : Slot} {data : List UInt8}

variable {es : List Event} {flags : UInt8} {z : Point}

/-- Any step of a call on one connection that leaves the rest of the stack alone. -/
theorem work_act {c : TcpConn}
    (h : Acted x.state x.trace i es c) : Work x ⟨x.state.setConn i c, es ++ x.trace⟩ :=
  .act x.state x.state x.trace i es c rfl rfl h

theorem work_emitted (x : Point) (i : Slot) : Work x ⟨x.state, .emitted i :: x.trace⟩ := by
  have h := work_act (x := x) (i := i) .emitted
  rwa [setConn_self] at h

theorem segment_ne_nil (c : TcpConn) (myIp : UInt32) (flags : UInt8) (data : List UInt8) :
    c.segment myIp flags data ≠ [] :=
  append_ne_nil_of_left_ne_nil (cons_ne_nil _ _) _

theorem work_recorded (h : Emits x.state x.trace i flags data.length) (now : UInt64) :
    Work x (recorded x i flags data now) :=
  work_act (.emit flags data.length _ now h (segment_ne_nil _ _ _ _))

theorem inFlight_record (i : Slot) {len : Nat} {c : TcpConn} {bytes : List UInt8}
    (now : UInt64) (tr : List Event) (hl : c.state ≠ .listen) (hr : c.state ≠ .synRcvd)
    (hcons : TcpConn.consumed flags len ≠ 0) (hbytes : bytes ≠ []) :
    InFlight i (flags, len, c) (c.record flags len bytes now)
      (.sent i bytes c :: .emit i flags len c :: tr) := by
  obtain ⟨hlen, hseq, hnxt⟩ := c.record_outstanding flags len bytes now hcons
  refine ⟨?_, ?_, by simp [lastEmit], hnxt, .inl ⟨?_, ?_⟩⟩
  · rwa [record_state]
  · rwa [record_state]
  · rw [hlen]
    exact fun h => hbytes (length_eq_zero_iff.1 h)
  · rw [hseq, hnxt]

/-- What is known once `tcp_emit` has handed the segment of a call to `ip_send`: it is on its
way, and if the connection was finished at once in the meantime, that was during the
transmission. -/
structure Transmitted (x : Point) (i : Slot) (flags : UInt8) (data : List UInt8) (z : Point) :
    Prop where
  inFlight : InFlight i (flags, data.length, x.state.conns i) (z.state.conns i) z.trace
  trace : ∃ es, z.trace = es ++ .sent i ((x.state.conns i).segment x.state.myIp flags data)
    (x.state.conns i) :: .emit i flags data.length (x.state.conns i) :: x.trace
  disturbed : ∀ es, z.trace = es ++ x.trace → DropSeen i (.emitted i :: z.trace) →
    disturbed i es = true

theorem Transmitted.disturbed_trace
    (h : Transmitted x i flags data z) (hdrop : DropSeen i (.emitted i :: z.trace)) :
    Net.disturbed i (.emitted i :: z.trace) = true := by
  obtain ⟨es, hes⟩ := h.trace
  rw [append_cons, append_cons] at hes
  by_contra hnot
  rw [Bool.not_eq_true, hes] at hnot
  have := disturbed_of_append (disturbed_append [emitted i] hnot)
  rw [h.disturbed _ hes hdrop] at this
  exact absurd this (by decide)

theorem transmitted {now : UInt64}
    (hz : Pumps (recorded x i flags data now) z) (hl : (x.state.conns i).state ≠ .listen)
    (hr : (x.state.conns i).state ≠ .synRcvd) (hcons : TcpConn.consumed flags data.length ≠ 0)
    (hflags : flags ≠ tcpSyn ||| tcpAckFlag) : Transmitted x i flags data z := by
  have hfly : InFlight i (flags, data.length, x.state.conns i)
      ((recorded x i flags data now).state.conns i) (recorded x i flags data now).trace := by
    rw [recorded, setConn_same]
    exact inFlight_record i now x.trace hl hr hcons (segment_ne_nil _ _ _ _)
  have hemitting : emitting i z.trace = true :=
    InFlight.emitting hz hflags hfly (by simp [recorded, emitting])
  obtain ⟨es1, hes1⟩ := hz.trace
  refine ⟨InFlight.pumps hz hfly, ⟨es1, hes1⟩, ?_⟩
  rintro es hes ⟨e, hmem, hd⟩
  -- everything since the segment was sent is in `es`
  have ha : (emit i flags data.length (x.state.conns i)).emits i = true := by
    simp [emits]
  have hes2 : z.trace = (es1 ++ [.sent i ((x.state.conns i).segment x.state.myIp flags data)
      (x.state.conns i)]) ++ .emit i flags data.length (x.state.conns i) :: x.trace := by
    simp [hes1, recorded]
  generalize es1 ++ _ = es2 at hes2
  have hcut : es = es2 ++ [.emit i flags data.length (x.state.conns i)] := by
    refine append_cancel_right (hes.symm.trans (hes2.trans ?_))
    simp
  rw [sinceEmit_cons, if_neg (by simp [opens, emits]), mem_cons] at hmem
  obtain rfl | hmem := hmem
  · exact absurd hd (by simp [drops])
  · rw [hes2, sinceEmit_cut ha] at hmem
    rw [hes2, emitting_cut ha] at hemitting
    rw [hcut]
    exact disturbed_of_dropSeen hemitting ⟨e, hmem, hd⟩

/-- A segment that `tcp_emit` has sent, that was waited for, and that is no longer outstanding
was acknowledged, unless the connection was finished at once during the transmission. Finished
at once during the wait, it would be seen to be done. -/
theorem ackSeen_of_waited {v : UInt8 × Nat × TcpConn} {w : Point}
    (hz : InFlight i v (z.state.conns i) z.trace) (hbefore : ¬DropSeen i (.emitted i :: z.trace))
    (hw : Pumps ⟨z.state, .emitted i :: z.trace⟩ w) (hretx : (w.state.conns i).retxLen = 0)
    (hopen : w = ⟨z.state, .emitted i :: z.trace⟩ ∨ (w.state.conns i).state ≠ .done) :
    AckSeen i (w.state.conns i).sndNxt w.trace := by
  obtain hout | hack | hdrop := (InFlight.pumps hw hz.returned).fate
  · exact absurd hretx hout.1
  · exact hack
  · obtain rfl | hopen := hopen
    · exact absurd hdrop hbefore
    · exact ((InFlight.done hw (P := False) hz.returned hbefore hdrop).elim id hopen).elim

theorem sendPost_of_le {sent : Nat} {y : Point} {r : Int}
    (h : r ≤ sent) : SendPost i data sent x r y := by
  intro _ es _ _ j hj hjr
  omega

theorem cInt_le (sent : Nat) : cInt sent ≤ sent := by
  unfold cInt
  rw [Int.bmod_def]
  split <;> omega

theorem stopped_le (sent : Nat) : (if sent ≠ 0 then cInt sent else -1) ≤ (sent : Int) := by
  split
  · exact cInt_le sent
  · omega

theorem ChunkAcked.append {base : UInt32} {off : Nat} {chunk : List UInt8}
    (h : ChunkAcked i base off chunk es) (es' : List Event) :
    ChunkAcked i base off chunk (es ++ es') := by
  obtain ⟨c, myIp, es1, es2, srcIp, seg, c', hnxt, rfl, hmem, hrest⟩ := h
  exact ⟨c, myIp, es1 ++ es', es2, srcIp, seg, c', hnxt, by simp, hmem, hrest⟩

/-- What a chunk that was sent and is no longer outstanding owes to the bytes before it. -/
theorem sendPost_chunk {chunk : List UInt8} {sent : Nat} {w v : Point} {r : Int}
    (hz : Transmitted x i (tcpAckFlag ||| tcpPsh) chunk z)
    (hw : Pumps ⟨z.state, .emitted i :: z.trace⟩ w)
    (hnxt : (w.state.conns i).sndNxt = (x.state.conns i).sndNxt + UInt32.ofNat chunk.length)
    (hchunk : chunk <+: data.drop sent)
    (hacked : ¬DropSeen i (.emitted i :: z.trace) → AckSeen i (w.state.conns i).sndNxt w.trace)
    (hwv : ∃ es, v.trace = es ++ w.trace) (hpost : SendPost i data (sent + chunk.length) w r v) :
    SendPost i data sent x r v := by
  intro hpos es hes hdist j hj hjr
  obtain ⟨es1, hes1⟩ := hz.trace
  obtain ⟨es2, hes2⟩ := hw.trace
  obtain ⟨es3, hes3⟩ := hwv
  have ha : (Event.emit i (tcpAckFlag ||| tcpPsh) chunk.length (x.state.conns i)).emits i = true := by
    simp [Event.emits]
  generalize Event.emit i (tcpAckFlag ||| tcpPsh) chunk.length (x.state.conns i) = a at ha hes1
  generalize hsending : Event.sent i _ (x.state.conns i) = sending at hes1
  have hztr : z.trace = (es1 ++ [sending, a]) ++ x.trace := by simp [hes1]
  have hsplit : es = es3 ++ (es2 ++ [.emitted i]) ++ (es1 ++ [sending, a]) := by
    refine append_cancel_right (hes.symm.trans (hes3.trans ?_))
    rw [hes2, hztr]
    simp
  have hbase : (w.state.conns i).sndNxt - UInt32.ofNat (sent + chunk.length) =
      (x.state.conns i).sndNxt - UInt32.ofNat sent := by
    rw [hnxt, UInt32.ofNat_add]
    grind
  rw [hsplit] at hdist ⊢
  by_cases hlt : j < sent + chunk.length
  · -- the byte is in this chunk, which was acknowledged after it was sent
    have hbefore : ¬DropSeen i (.emitted i :: z.trace) := by
      intro hdrop
      have := hz.disturbed _ hztr hdrop
      rw [disturbed_append _ hdist] at this
      exact absurd this (by decide)
    obtain ⟨srcIp, seg, c, hmem, hrst, hack, hseq⟩ := hacked hbefore
    refine ⟨sent, chunk, hj, hlt, hchunk, x.state.conns i, x.state.myIp, [a],
      es3 ++ (es2 ++ [.emitted i]) ++ es1, srcIp, seg, c, (UInt32.sub_add_cancel _ _).symm, ?_, ?_,
      hrst, hack, ?_⟩
    · simp [hsending]
    · have hmem' : Event.delivered i srcIp seg c ∈ es2 ++ .emitted i :: es1 ++ [sending] := by
        rw [hes2, hes1] at hmem
        refine @mem_of_mem_sinceEmit i _ x.trace _ a ha ?_
        simpa using hmem
      rw [mem_append, mem_singleton, ← hsending] at hmem'
      obtain hmem' | heq := hmem'
      · simp only [mem_append, mem_cons] at hmem' ⊢
        tauto
      · exact absurd heq (by simp)
    · rw [← hbase, UInt32.sub_add_cancel]
      exact hseq
  · obtain ⟨off, chunk', hoff, hlt', hpre, hack⟩ := hpost hpos es3 hes3
      (disturbed_of_append (append_assoc _ _ _ ▸ hdist)) j (by omega) hjr
    rw [hbase] at hack
    refine ⟨off, chunk', hoff, hlt', hpre, ?_⟩
    rw [append_assoc]
    exact hack.append _

theorem consumed_data (len : Nat) : TcpConn.consumed (tcpAckFlag ||| tcpPsh) len = len := rfl

/-- **The loop of `net_tcp_send`.** Every chunk it counts was acknowledged, unless the
connection was finished at once while a chunk was being transmitted. -/
theorem sendLoop_wp (i : Slot) (data : List UInt8) (sent : Nat) (hpre : SendPre i data sent x) :
    contract.wp Work (sendLoop i data sent) x (SendPost i data sent x) := by
  unfold sendLoop
  split
  · rename_i hlt
    simp only [wp_bind, wp_conn]
    split
    · exact sendPost_of_le (stopped_le sent)
    rename_i hstate
    rw [not_not] at hstate
    generalize hc : (data.drop sent).take (min (data.length - sent) tcpMss) = bytes
    have hchunk : bytes.take tcpMss = bytes := by
      rw [← hc, take_take, min_eq_right (min_le_right _ _)]
    have hlen : bytes.length = min (data.length - sent) tcpMss := by
      simp [← hc]
    have hpos : min (data.length - sent) tcpMss ≠ 0 := by
      have : tcpMss = 536 := rfl
      omega
    have hfit : min (data.length - sent) tcpMss ≤ data.length :=
      (min_le_left _ _).trans (Nat.sub_le _ _)
    have hpre_data : bytes <+: data.drop sent := hc ▸ take_prefix _ _
    generalize min (data.length - sent) tcpMss = chunk at *
    have hemits : Emits x.state x.trace i (tcpAckFlag ||| tcpPsh) bytes.length := by
      obtain ⟨_, huse, id, hid, hhead⟩ | hretx := hpre
      · exact .first id data _ hid hhead huse hstate (hlen ▸ hpos) (hlen ▸ hfit)
      · exact .next _ hretx hstate (hlen ▸ hpos)
    refine wp_seq (tcpEmit_wp work_pump i _ bytes ?_ ?_) ?_
    · intro now
      rw [hchunk]
      exact work_recorded hemits now
    · exact fun _ z _ => work_emitted z i
    · rintro _ y ⟨now, z, hz, rfl⟩
      rw [hchunk] at hz
      -- the chunk is followed through the transmission ...
      have hsent := transmitted hz (by rw [hstate]; decide) (by rw [hstate]; decide)
        (by rw [consumed_data, hlen]; exact hpos) (by decide)
      simp only [wp_bind, wp_ktimeMs]
      intro t
      refine wp_proc.2 ⟨work_pump, trivial, ?_⟩
      intro r w hw hpost
      split
      · rename_i hr
        -- ... and through the wait, at whose end it is not outstanding
        obtain ⟨hretx, hopen⟩ := hpost hr
        refine wp_proc.2 ⟨fun _ _ h => h, .inr hretx, ?_⟩
        intro r' v hv hpost'
        refine sendPost_chunk hsent hw ?_ hpre_data ?_ ((Work.trace_chain hv).imp fun _ h => h.1)
          (hlen.symm ▸ hpost')
        · rw [(InFlight.pumps hw hsent.inFlight.returned).nxt, consumed_data]
        · exact fun hbefore => ackSeen_of_waited hsent.inFlight hbefore hw hretx hopen
      · exact sendPost_of_le (stopped_le sent)
  · exact sendPost_of_le (cInt_le sent)

/-! ## The other calls -/

section Calls

variable {x : Point}

theorem work_quiet {n : Stack} (h : n.conns = x.state.conns) (hs : n.socks = x.state.socks) :
    Work x ⟨n, x.trace⟩ :=
  .pump (.quiet x.state n x.trace h (.inl hs))

theorem wait_wp (p : Proc) (hp : ∀ y z, contract.guar p y z → Pump y z) (hpre : contract.pre p x) :
    contract.wp Work (proc p) x fun r y => contract.post p x r y :=
  wp_proc.2 ⟨fun y z h => .pump (hp y z h), hpre, fun _ _ _ h => h⟩

theorem netPing_does (dstIp timeoutMs : UInt32) : Does Work (netPing dstIp timeoutMs) x := by
  simp only [netPing, wp_bind, wp_stack]
  split
  · trivial
  simp only [wp_bind, wp_ktimeUs, wp_commit]
  intro us
  refine ⟨work_quiet rfl rfl, wp_mono (ipSend_wp work_pump _ _ _) ?_⟩
  intro sent y _
  split
  · trivial
  simp only [wp_bind, wp_ktimeMs]
  intro now
  refine wp_mono (wait_wp (.pingWait _) pump_refl trivial) fun got z _ => ?_
  split <;> trivial

theorem netTcpConnect_does (dstIp : UInt32) (port : UInt16) (timeoutMs : UInt32) :
    Does Work (netTcpConnect dstIp port timeoutMs) x := by
  simp only [netTcpConnect, wp_bind, wp_stack]
  split
  · trivial
  split
  · trivial
  rename_i i hfree
  simp only [wp_bind, wp_ktimeNs, wp_commit]
  intro ns
  refine ⟨.act _ _ _ i _ _ (nextEphemeral_conns _) rfl
    (.connect dstIp port ns.toUInt32 (freeConn_spec hfree)), ?_⟩
  refine wp_mono (tcpEmit_wp work_pump i tcpSyn [] ?_ fun _ z _ => work_emitted z i) ?_
  · intro now
    refine work_recorded (.syn x.state.conns ?_ ?_) now
    · rw [setConn_same]
      rfl
    · rw [setConn_same]
      rfl
  · intro _ y _
    simp only [wp_ktimeMs]
    intro now
    refine wp_mono (wait_wp (.connectWait i _) pump_refl trivial) fun ok z _ => ?_
    split
    · trivial
    · exact ⟨work_act .release, trivial⟩

theorem netTcpListen_does (port : UInt16) : Does Work (netTcpListen port) x := by
  simp only [netTcpListen, wp_bind, wp_stack]
  split
  · trivial
  · split
    · trivial
    · rename_i i hfree
      exact ⟨work_act (.listen port (freeConn_spec hfree)), trivial⟩

theorem netTcpAccept_does (id : Int) (timeoutMs : UInt32) :
    Does Work (netTcpAccept id timeoutMs) x := by
  simp only [netTcpAccept, wp_bind, wp_stack]
  split
  · trivial
  rename_i i _
  split
  · trivial
  · simp only [wp_bind, wp_ktimeMs]
    intro now
    refine wp_mono (wait_wp (.acceptWait i _) pump_refl trivial) fun ok y _ => ?_
    split <;> trivial

theorem netTcpSend_wp {id : Int}
    (hhead : x.trace.head? = some (.called (.tcpSend id data) x.state.conns)) :
    contract.wp Work (netTcpSend id data) x fun r y =>
      0 < r → ∃ i, slotOf id = some i ∧ SendPost i data 0 x r y := by
  simp only [netTcpSend, wp_bind, wp_stack]
  split
  · exact fun h => absurd h (by decide)
  rename_i i hid
  split
  · exact fun h => absurd h (by decide)
  · rename_i huse
    refine wp_proc.2 ⟨fun _ _ h => h, .inl ⟨rfl, by simpa using huse, id, hid, hhead⟩, ?_⟩
    exact fun r y _ hpost _ => ⟨i, hid, hpost⟩

/-- `net_tcp_recv` returns 0 to a caller with room only at the end of the stream. -/
theorem netTcpRecv_wp (id : Int) (cap timeoutMs : UInt32) :
    contract.wp Work (netTcpRecv id cap timeoutMs) x fun r y =>
      Returns y.state y.trace (.tcpRecv id cap timeoutMs) r := by
  simp only [netTcpRecv, wp_bind, wp_stack]
  split
  · exact fun h => absurd h (by decide)
  rename_i i hid
  split
  · exact fun h => absurd h (by decide)
  simp only [wp_bind, wp_ktimeMs]
  intro now
  refine wp_mono (wait_wp (.recvWait i _) pump_refl trivial) fun w y hy => ?_
  cases w with
  | eof => exact fun _ => .inr ⟨i, hid, hy.1 rfl⟩
  | timeout => exact fun h => absurd h (by decide)
  | data =>
    refine ⟨work_act (.drain _ (min_le_left _ _)), fun h => .inl ?_⟩
    have hlen := hy.2 rfl
    simp only at h
    omega

theorem netTcpClose_does {id : Int}
    (hhead : x.trace.head? = some (.called (.tcpClose id) x.state.conns)) :
    Does Work (netTcpClose id) x := by
  simp only [netTcpClose, wp_bind, wp_stack]
  split
  · trivial
  rename_i i hid
  split
  · trivial
  rename_i huse
  have hrelease : ∀ y, contract.wp Work
      (update i release fun c => [.released i c]) y fun _ _ => True :=
    fun y => wp_update.2 ⟨work_act .release, trivial⟩
  split
  · rename_i hstate
    refine wp_seq (tcpEmit_wp work_pump i (tcpFin ||| tcpAckFlag) [] ?_
      fun _ z _ => work_emitted z i) ?_
    · exact fun now => work_recorded (.fin id hid hhead (by simpa using huse) hstate) now
    · rintro _ y ⟨now, z, hz, rfl⟩
      have hsent := transmitted hz (by rw [hstate]; decide) (by rw [hstate]; decide)
        (by decide) (by decide)
      simp only [wp_bind, wp_update, wp_ktimeMs]
      refine ⟨work_act (.waitFin (x.state.conns i) hsent.inFlight.returned ?_
        hsent.disturbed_trace), fun t => ?_⟩
      · refine hz.keeps (i := i) (I := fun c => c.inUse = true) ?_ ?_
        · exact fun n tr es c hs hc => hs.inUse.trans hc
        · simpa [recorded] using huse
      · refine wp_mono (wait_wp (.closeWait i _) pump_refl trivial) ?_
        exact fun _ w _ => hrelease w
  · exact hrelease x

theorem netUdpBind_does (s : Int) (port : UInt16) : Does Work (netUdpBind s port) x := by
  simp only [netUdpBind, wp_bind, wp_stack]
  split
  · trivial
  · rename_i k hk
    refine ⟨.udp _ _ _ (.bind s port) trivial ?_ (udpBind_conns _ _ _), trivial⟩
    rw [udpDo, udpBindTo, hk]

theorem netUdpSendto_does (s : Int) (dstIp : UInt32) (dport : UInt16) (data : List UInt8) :
    Does Work (netUdpSendto s dstIp dport data) x := by
  have hout : ∀ y sport, contract.wp Work (udpOutput sport dstIp dport data) y fun _ _ => True := by
    intro y sport
    exact wp_mono (ipSend_wp work_pump _ _ _) fun _ _ _ => trivial
  simp only [netUdpSendto, wp_bind, wp_stack]
  split
  · trivial
  split
  · trivial
  split
  · refine wp_seq (netUdpBind_does s 0) fun bound y _ => ?_
    split
    · simp only [wp_bind, wp_stack]
      exact hout y _
    · trivial
  · simp only [wp_bind, wp_pure, if_true, wp_stack]
    exact hout x _

theorem netUdpRecvfrom_does (s : Int) (timeoutMs : UInt32) (cap : UInt16) :
    Does Work (netUdpRecvfrom s timeoutMs cap) x := by
  simp only [netUdpRecvfrom, wp_bind, wp_stack]
  split
  · trivial
  rename_i k _
  split
  · trivial
  rename_i huse
  simp only [wp_bind, wp_ktimeMs]
  intro now
  refine wp_proc.2 ⟨work_pump, trivial, ?_⟩
  intro got y hy hpost
  split
  · rename_i hgot
    -- the socket is still open, and a datagram is queued on it
    have hopen : (y.state.socks k).inUse = true := (Pumps.inUse hy k).trans (by simpa using huse)
    exact ⟨.udp _ _ _ (.recvfrom k cap) ⟨hopen, hpost hgot⟩ rfl rfl, trivial⟩
  · trivial

end Calls

/-! ## The kernel -/

theorem takeWhile_cut {tr : List Event} {a : Event} (hes : ∀ e ∈ es, e.isCalled = false)
    (ha : a.isCalled = true) : (es ++ a :: tr).takeWhile (fun e => !e.isCalled) = es := by
  rw [takeWhile_append_of_pos (by simpa using hes), takeWhile_cons_of_neg (by simp [ha]),
    append_nil]

theorem perform_wp {a : ApiCall} (hhead : x.trace.head? = some (.called a x.state.conns)) :
    contract.wp Work (perform a) x fun r y => Returns y.state y.trace a r := by
  cases a with
  | tcpRecv id cap timeout => exact netTcpRecv_wp id cap timeout
  | tcpSend id data =>
    refine wp_seq (wp_chain (netTcpSend_wp hhead)) fun r y hy hpos => ?_
    obtain ⟨i, hid, hpost⟩ := hy.2 hpos
    refine ⟨i, hid, fun es conns tr' htr hes hdist j hj => ?_⟩
    obtain ⟨es', hes', hno⟩ := Work.trace_chain hy.1
    obtain ⟨tr, hx⟩ : ∃ tr, x.trace = .called (.tcpSend id data) x.state.conns :: tr := by
      cases htrace : x.trace with
      | nil => simp [htrace] at hhead
      | cons e tr => exact ⟨tr, by simpa [htrace] using hhead⟩
    -- the events since the call are the ones the call has logged
    rw [hx] at hes'
    have hcut := congrArg (takeWhile fun e => !e.isCalled) (htr.symm.trans hes')
    rw [takeWhile_cut hes rfl, takeWhile_cut hno rfl] at hcut
    obtain rfl := hcut
    obtain ⟨hcall, _⟩ := cons.inj (append_cancel_left (htr.symm.trans hes'))
    obtain ⟨_, rfl⟩ := called.inj hcall
    have := hpost hpos es (hx ▸ hes') hdist j (Nat.zero_le j) hj
    simpa using this
  | tcpConnect dst port timeout =>
    exact wp_seq (netTcpConnect_does dst port timeout) fun _ _ _ => trivial
  | tcpListen port => exact wp_seq (netTcpListen_does port) fun _ _ _ => trivial
  | tcpAccept id timeout => exact wp_seq (netTcpAccept_does id timeout) fun _ _ _ => trivial
  | tcpClose id => exact wp_seq (netTcpClose_does hhead) fun _ _ _ => trivial
  | poll => exact wp_seq (poll_wp work_pump) fun _ _ _ => trivial
  | ping dst timeout => exact wp_mono (netPing_does dst timeout) fun _ _ _ => trivial
  | udpBind s port => exact wp_seq (netUdpBind_does s port) fun _ _ _ => trivial
  | udpSendto s dst dport data =>
    exact wp_seq (netUdpSendto_does s dst dport data) fun _ _ _ => trivial
  | udpRecvfrom s timeout cap =>
    exact wp_mono (netUdpRecvfrom_does s timeout cap) fun _ _ _ => trivial
  | config ip mask gw => exact ⟨work_quiet rfl rfl, trivial⟩
  | udpOpen =>
    simp only [perform, netUdpOpen, wp_bind, wp_stack]
    split
    · trivial
    · rename_i k hk
      refine ⟨.udp _ _ _ .opens trivial ?_ rfl, trivial⟩
      rw [udpDo, udpOpen, hk]
  | udpClose s =>
    simp only [perform, netUdpClose, wp_bind, wp_stack]
    split
    · trivial
    · rename_i k hk
      refine ⟨.udp _ _ _ (.close s) trivial ?_ rfl, trivial⟩
      rw [udpDo, udpClose, hk]

theorem kernel_does : Does Api kernel x := by
  simp only [kernel, wp_bind]
  refine wp_ask.2 fun a => ?_
  simp only [wp_stack, wp_commit]
  refine ⟨.called x.state x.trace a, ?_⟩
  refine wp_mono (wp_weaken (fun _ _ => .work) (perform_wp rfl)) fun r y hy => ?_
  refine ⟨.returned y.state y.trace a r hy, ?_⟩
  exact wp_proc.2 ⟨fun _ _ h => h, trivial, fun _ _ _ _ => trivial⟩

/-- **Every procedure of the stack keeps to its contract.** -/
theorem met : contract.Met body := by
  intro p x hpre
  cases p with
  | netPoll => exact netPoll_does
  | rxLoop => exact rxLoop_does
  | arpWait ip deadline => exact arpWait_does deadline ip
  | pingWait deadline => exact pingWait_does deadline
  | connectWait i deadline => exact connectWait_does i deadline
  | acceptWait i deadline => exact acceptWait_does i deadline
  | sendLoop i data sent => exact sendLoop_wp i data sent hpre
  | sendWait i deadline => exact sendWait_wp i deadline
  | recvWait i deadline => exact recvWait_wp i deadline
  | closeWait i deadline => exact closeWait_does i deadline
  | udpRecvWait s deadline => exact udpRecvWait_wp deadline s
  | kernel => exact kernel_does

/-- The kernel running on a card with address `mac`, before its first call. -/
def start (mac : Mac) : lang.Config Unit := ⟨⟨Stack.boot mac, []⟩, kernel⟩

/-- A point of some run of the kernel, between two calls or in the middle of one. -/
def Visited (x : Point) : Prop := ∃ mac rest, Reaches body (start mac) ⟨x, rest⟩

/-- Two consecutive points of some run. -/
def Moves (x y : Point) : Prop :=
  ∃ mac rest rest', Reaches body (start mac) ⟨x, rest⟩ ∧ Step body ⟨x, rest⟩ ⟨y, rest'⟩

/-- **Every point of every run is reached by steps of the step relation.** -/
theorem visited_steps (h : Visited x) :
    ∃ mac, Relation.ReflTransGen Api ⟨Stack.boot mac, []⟩ x := by
  obtain ⟨mac, rest, hr⟩ := h
  exact ⟨mac, (met.reaches hr kernel_does).1⟩

theorem moves_step {y : Point} (h : Moves x y) : y = x ∨ Api x y := by
  obtain ⟨mac, rest, rest', hr, hs⟩ := h
  exact (met.step hs (met.reaches hr kernel_does).2).1

end JuampiOs.Net
