import JuampiOs.Net.Udp

/-!
# What the stack can do in one step

The state of the connections changes in small pieces: the statements between two points at
which the code may hand control to the poll pump. `Served` lists the pieces that belong to
the pump itself (handling a segment, the retransmission timer), `Pump` puts them in the whole
stack, and `Api` adds the pieces that belong to the calls of the public interface. Each piece
says what is known when it runs.
-/

namespace JuampiOs.Net

open Lib List Event TcpConn Stack

/-! ## Reading the log -/

def Event.opens (i : Slot) : Event → Bool
  | .opened j _ _ => j = i
  | _ => false

/-- The events since connection record `i` was last filled in. -/
def since (i : Slot) (tr : List Event) : List Event := tr.takeWhile fun e => !e.opens i

@[simp] theorem since_cons (i : Slot) (e : Event) (tr : List Event) :
    since i (e :: tr) = if e.opens i then [] else e :: since i tr := by
  by_cases h : e.opens i <;> simp [since, h]

variable {i : Slot} {es tr : List Event} {e : Event} {n : Stack} {c : TcpConn} {x y : Point}

theorem since_append (hes : ∀ e ∈ es, e.opens i = false)
    (tr : List Event) : since i (es ++ tr) = es ++ since i tr :=
  takeWhile_append_of_pos fun e he => by simp [hes e he]

theorem mem_of_mem_since (h : e ∈ since i tr) : e ∈ tr :=
  (takeWhile_sublist _).subset h

theorem mem_since_append
    (hes : ∀ e ∈ es, e.opens i = false) (h : e ∈ since i tr) : e ∈ since i (es ++ tr) := by
  rw [since_append hes]
  exact mem_append_right _ h

/-- The connection an event is about. -/
def Event.slot : Event → Option Slot
  | .called _ _ => none
  | .returned _ _ => none
  | .opened i _ _ => some i
  | .passive i _ _ => some i
  | .delivered i _ _ _ => some i
  | .emit i _ _ _ => some i
  | .emitted i => some i
  | .sent i _ _ => some i
  | .gaveUp i _ => some i
  | .stored i _ _ => some i
  | .finSeen i _ _ => some i
  | .received i _ => some i
  | .released i _ => some i

/-- An event that finishes a connection at once: a RST for it, or giving up on it. -/
def Event.drops (i : Slot) : Event → Bool
  | .delivered j _ seg _ => j = i && seg.isRst
  | .gaveUp j _ => j = i
  | _ => false

/-- `tcp_emit` has been called for connection `i` and has not returned. -/
def emitting (i : Slot) : List Event → Bool
  | [] => false
  | .emit j _ _ _ :: tr => j = i || emitting i tr
  | .emitted j :: tr => j ≠ i && emitting i tr
  | _ :: tr => emitting i tr

/-- Connection `i` was finished at once while `tcp_emit` was transmitting for it. -/
def disturbed (i : Slot) : List Event → Bool
  | [] => false
  | e :: tr => (e.drops i && emitting i tr) || disturbed i tr

/-- The last segment that `tcp_emit` sent on connection `i`: its flags, its length and the
connection before it. -/
def lastEmit (i : Slot) : List Event → Option (UInt8 × Nat × TcpConn)
  | [] => none
  | .emit j flags len c :: tr => if j = i then some (flags, len, c) else lastEmit i tr
  | .opened j _ _ :: tr => if j = i then none else lastEmit i tr
  | _ :: tr => lastEmit i tr

def Event.emits (i : Slot) : Event → Bool
  | .emit j _ _ _ => j = i
  | _ => false

/-- The events since then. -/
def sinceEmit (i : Slot) (tr : List Event) : List Event :=
  tr.takeWhile fun e => !(e.opens i || e.emits i)

/-- Since the last segment was sent on connection `i`, sequence number `e` was acknowledged. -/
def AckSeen (i : Slot) (e : UInt32) (tr : List Event) : Prop :=
  ∃ srcIp seg c, .delivered i srcIp seg c ∈ sinceEmit i tr ∧ seg.isRst = false ∧
    seg.isAck = true ∧ seqLt seg.ack e = false

/-- Since then, the connection was finished at once. -/
def DropSeen (i : Slot) (tr : List Event) : Prop := ∃ e ∈ sinceEmit i tr, e.drops i = true

@[simp] theorem sinceEmit_cons (i : Slot) (e : Event) (tr : List Event) :
    sinceEmit i (e :: tr) = if e.opens i || e.emits i then [] else e :: sinceEmit i tr := by
  rw [sinceEmit, takeWhile_cons]
  by_cases h : e.opens i || e.emits i <;> simp only [h, sinceEmit] <;> rfl

theorem lastEmit_cons (tr : List Event) (ho : e.opens i = false)
    (he : e.emits i = false) : lastEmit i (e :: tr) = lastEmit i tr := by
  cases e <;> simp_all [lastEmit, opens, emits]

section Append

variable {i : Slot} {e : UInt32} {es : List Event}
  (hes : ∀ e ∈ es, e.opens i = false ∧ e.emits i = false) (tr : List Event)
include hes

theorem lastEmit_append : lastEmit i (es ++ tr) = lastEmit i tr := by
  induction es with
  | nil => rfl
  | cons a es ih =>
    have ha := hes a (by simp)
    rw [cons_append, lastEmit_cons _ ha.1 ha.2, ih fun b hb => hes b (by simp [hb])]

theorem sinceEmit_append : sinceEmit i (es ++ tr) = es ++ sinceEmit i tr :=
  takeWhile_append_of_pos fun a ha => by simp [hes a ha]

variable {tr}

theorem AckSeen.append (h : AckSeen i e tr) : AckSeen i e (es ++ tr) := by
  obtain ⟨srcIp, seg, c, hmem, hrest⟩ := h
  exact ⟨srcIp, seg, c, by simp [sinceEmit_append hes, hmem], hrest⟩

theorem DropSeen.append (h : DropSeen i tr) : DropSeen i (es ++ tr) := by
  obtain ⟨e, hmem, hd⟩ := h
  exact ⟨e, by simp [sinceEmit_append hes, hmem], hd⟩

theorem DropSeen.of_append (h : DropSeen i (es ++ tr)) :
    (∃ e ∈ es, e.drops i = true) ∨ DropSeen i tr := by
  obtain ⟨e, hmem, hd⟩ := h
  rw [sinceEmit_append hes, mem_append] at hmem
  exact hmem.imp (⟨e, ·, hd⟩) (⟨e, ·, hd⟩)

end Append

theorem mem_of_mem_sinceEmit {a : Event} (ha : a.emits i = true)
    (h : e ∈ sinceEmit i (es ++ a :: tr)) : e ∈ es := by
  induction es with
  | nil => simp [ha] at h
  | cons b es ih =>
    rw [cons_append, sinceEmit_cons] at h
    split at h
    · simp at h
    · exact (mem_cons.1 h).elim (fun h => by simp [h]) fun h => by simp [ih h]

/-- A connection finished at once while `tcp_emit` is still at work was disturbed. -/
theorem disturbed_of_dropSeen (hemit : emitting i tr = true)
    (hdrop : DropSeen i tr) : disturbed i tr = true := by
  obtain ⟨e, he, hd⟩ := hdrop
  induction tr with
  | nil => simp [sinceEmit] at he
  | cons a tr ih =>
    rw [sinceEmit_cons] at he
    split at he
    · simp at he
    rename_i hnot
    rw [Bool.or_eq_true, not_or, Bool.not_eq_true, Bool.not_eq_true] at hnot
    have hemit' : emitting i tr = true := by
      cases a <;> simp_all [emitting, emits]
    rcases mem_cons.1 he with rfl | he
    · simp [disturbed, hd, hemit']
    · simp [disturbed, ih hemit' he]

/-! ## The pieces of the pump -/

/-- What the pump may do to connection `i` in one piece: the events it logs and the new
record. -/
inductive Served (n : Stack) (tr : List Event) (i : Slot) : List Event → TcpConn → Prop where
  /-- a segment is handed to `ip_send` -/
  | sent (seg : List UInt8) : Served n tr i [.sent i seg (n.conns i)] (n.conns i)
  /-- the `tcp_emit` of a SYN-ACK returns -/
  | emitted (c : TcpConn) (hlast : lastEmit i tr = some (tcpSyn ||| tcpAckFlag, 0, c)) :
      Served n tr i [.emitted i] (n.conns i)
  | passive (srcIp : UInt32) (seg : Segment) (ns : UInt32)
      (hfind : n.tcpFind srcIp seg.sport seg.dport = none) (hsyn : seg.isSyn)
      (hlisten : n.listener seg.dport = some i) :
      Served n tr i [.passive i srcIp seg] ((n.conns i).passiveOpen srcIp seg ns)
  /-- the SYN-ACK that answers it -/
  | answer (srcIp : UInt32) (seg : Segment) (bytes : List UInt8) (now : UInt64)
      (hhead : tr.head? = some (.passive i srcIp seg)) (hstate : (n.conns i).state = .synRcvd)
      (hbytes : bytes ≠ []) :
      Served n tr i [.sent i bytes (n.conns i), .emit i (tcpSyn ||| tcpAckFlag) 0 (n.conns i)]
        ((n.conns i).record (tcpSyn ||| tcpAckFlag) 0 bytes now)
  | reset (srcIp : UInt32) (seg : Segment)
      (hfind : n.tcpFind srcIp seg.sport seg.dport = some i) (hrst : seg.isRst = true) :
      Served n tr i [.delivered i srcIp seg (n.conns i)] (n.conns i).abort
  | ack (srcIp : UInt32) (seg : Segment)
      (hfind : n.tcpFind srcIp seg.sport seg.dport = some i) (hrst : seg.isRst = false) :
      Served n tr i [.delivered i srcIp seg (n.conns i)] ((n.conns i).ackUpdate seg)
  | synAck (srcIp : UInt32) (seg : Segment) (c : TcpConn) (tr' : List Event)
      (htr : tr = .delivered i srcIp seg c :: tr') (hc : n.conns i = c.ackUpdate seg)
      (hrst : seg.isRst = false) (hstate : (n.conns i).state = .synSent) (hsyn : seg.isSyn = true)
      (hack : seg.isAck = true) :
      Served n tr i [] ((n.conns i).synAck seg)
  /-- in-order data of a segment that was delivered while the record was in state `c` -/
  | accept (srcIp : UInt32) (seg : Segment) (c : TcpConn)
      (hmem : .delivered i srcIp seg c ∈ since i tr) (hrst : seg.isRst = false)
      (hc : c.state ≠ .synSent) (h : (n.conns i).InOrder seg) :
      Served n tr i [.stored i seg (n.conns i)] ((n.conns i).accept seg h)
  | acceptFin (srcIp : UInt32) (seg : Segment) (c : TcpConn)
      (hmem : .delivered i srcIp seg c ∈ since i tr) (hrst : seg.isRst = false)
      (hc : c.state ≠ .synSent) (h : (n.conns i).FinNext seg) :
      Served n tr i [.finSeen i seg (n.conns i)] (n.conns i).acceptFin
  /-- line 247, after the FIN of `seg` was taken -/
  | finish (seg : Segment) (c : TcpConn) (hmem : .finSeen i seg c ∈ since i tr)
      (hc : c.state = .finWait) (hstate : (n.conns i).state = .finWait)
      (hpeer : (n.conns i).peerFin = true) :
      Served n tr i [] (n.conns i).finish
  /-- line 251 -/
  | closed (hstate : (n.conns i).state = .finWait) (hretx : (n.conns i).retxLen = 0)
      (hpeer : (n.conns i).peerFin = true) :
      Served n tr i [] (n.conns i).finish
  | resend (now : UInt64) (bytes : List UInt8) (hretx : (n.conns i).retxLen ≠ 0) :
      Served n tr i [.sent i bytes (n.conns i)] ((n.conns i).resend now)
  | giveUp (hretx : (n.conns i).retxLen ≠ 0) :
      Served n tr i [.gaveUp i (n.conns i)] (n.conns i).abort

/-- What the pump does to the sockets. -/
def Arrives (n n' : Stack) : Prop :=
  n'.socks = n.socks ∨ ∃ srcIp data, n' = n.udpArrive srcIp data

/-- One piece of the pump. -/
inductive Pump : Point → Point → Prop where
  /-- nothing that concerns the connections -/
  | quiet (n n' : Stack) (tr : List Event) (h : n'.conns = n.conns) (hs : Arrives n n') :
      Pump ⟨n, tr⟩ ⟨n', tr⟩
  | serve (n : Stack) (tr : List Event) (i : Slot) (es : List Event) (c : TcpConn)
      (h : Served n tr i es c) : Pump ⟨n, tr⟩ ⟨n.setConn i c, es ++ tr⟩

abbrev Pumps : Point → Point → Prop := Relation.ReflTransGen Pump

/-! ### Lookups -/

theorem Stack.listener_spec {dport : UInt16}
    (h : n.listener dport = some i) : (n.conns i).inUse = true ∧ (n.conns i).state = .listen ∧
      (n.conns i).localPort = dport := by
  have := find?_some h
  simpa [and_assoc] using this

theorem Stack.tcpFind_spec {srcIp : UInt32} {sport dport : UInt16}
    (h : n.tcpFind srcIp sport dport = some i) :
    (n.conns i).inUse = true ∧ (n.conns i).peerIp = srcIp ∧ (n.conns i).peerPort = sport ∧
      (n.conns i).localPort = dport := by
  have := find?_some h
  simpa [and_assoc] using this

theorem Stack.freeConn_spec (h : n.freeConn = some i) : (n.conns i).inUse = false := by
  have := find?_some h
  simpa using this

section

variable (h : Served n tr i es c)
include h

theorem Served.inUse : c.inUse = (n.conns i).inUse := by
  cases h with
  | answer => exact record_inUse _ _ _ _ _
  | ack => exact ackUpdate_inUse _ _
  | _ => rfl

theorem Served.opens {j : Slot} : ∀ e ∈ es, e.opens j = false := by
  cases h <;> simp [opens]

theorem Served.slot : ∀ e ∈ es, e.slot = some i := by
  cases h <;> simp [slot]

theorem Served.finWait (hc : c.state = .finWait) : (n.conns i).state = .finWait := by
  cases h with
  | ack srcIp seg hfind hrst => exact ackUpdate_state_eq _ _ (by decide) hc
  | answer => rwa [record_state] at hc
  | passive | reset | giveUp | synAck | finish | closed => exact absurd hc nofun
  | _ => exact hc

end

theorem Pumps.mem_since (h : Pumps x y) (he : e ∈ since i x.trace) : e ∈ since i y.trace := by
  refine chain_keeps (I := fun z => e ∈ since i z.trace) (fun x y hxy hx => ?_) h he
  cases hxy with
  | quiet => exact hx
  | serve n tr i es c h => exact mem_since_append h.opens hx

/-- A statement about connection `i` and the log that events about others do not touch. -/
def Skips (i : Slot) (I : TcpConn → List Event → Prop) : Prop :=
  ∀ c e tr, e.slot ≠ some i → I c tr → I c (e :: tr)

variable {I : TcpConn → List Event → Prop}

theorem Skips.append (h : Skips i I) (hes : ∀ e ∈ es, e.slot ≠ some i) (hI : I c tr) : I c
    (es ++ tr) := by
  induction es with
  | nil => exact hI
  | cons e es ih => exact h c e _ (hes e (by simp)) (ih fun a ha => hes a (by simp [ha]))

/-- **What holds of one connection across the pump**: every piece that serves it keeps it. -/
theorem Pump.track (hskip : Skips i I)
    (hI : ∀ n tr es c, Served n tr i es c → I (n.conns i) tr → I c (es ++ tr))
    (h : Pump x y) (hx : I (x.state.conns i) x.trace) : I (y.state.conns i) y.trace := by
  cases h with
  | quiet n n' tr h _ => exact (congrFun h i).symm ▸ hx
  | serve n tr j es c h =>
    by_cases hij : i = j
    · subst hij
      rw [setConn_same]
      exact hI n tr es c h hx
    · rw [setConn_of_ne n c hij]
      refine hskip.append (fun e he heq => hij ?_) hx
      rw [h.slot e he] at heq
      exact (Option.some.inj heq).symm

theorem Pumps.track (hskip : Skips i I)
    (hI : ∀ n tr es c, Served n tr i es c → I (n.conns i) tr → I c (es ++ tr))
    (h : Pumps x y) (hx : I (x.state.conns i) x.trace) : I (y.state.conns i) y.trace :=
  chain_keeps (I := fun z => I (z.state.conns i) z.trace) (fun _ _ hxy => hxy.track hskip hI) h hx

theorem Pumps.inUse (h : Pumps x y) (s : Sock) :
    (y.state.socks s).inUse = (x.state.socks s).inUse := by
  induction h with
  | refl => rfl
  | tail _ hxy ih =>
    rw [← ih]
    cases hxy with
    | quiet n n' tr _ hs =>
      rcases hs with hsocks | ⟨srcIp, data, rfl⟩
      · rw [hsocks]
      · exact n.udpArrive_inUse srcIp data s
    | serve => rfl

theorem Pumps.keeps {I : TcpConn → Prop}
    (hI : ∀ n tr es c, Served n tr i es c → I (n.conns i) → I c) (h : Pumps x y)
    (hx : I (x.state.conns i)) : I (y.state.conns i) :=
  h.track (I := fun c _ => I c) (fun _ _ _ _ hc => hc) hI hx

/-- **What one piece of the pump does to the outstanding segment.** It opens a listening
connection, or sends the SYN-ACK, or sends nothing new; in the last case the segment stays, is
released by an acknowledgement or is given up together with the connection. -/
theorem Served.outstanding (h : Served n tr i es c) :
    (∃ srcIp seg ns, es = [.passive i srcIp seg] ∧ n.listener seg.dport = some i ∧
      c = (n.conns i).passiveOpen srcIp seg ns) ∨
    (∃ srcIp seg bytes now, tr.head? = some (.passive i srcIp seg) ∧
      (n.conns i).state = .synRcvd ∧ bytes ≠ [] ∧
      es = [.sent i bytes (n.conns i), .emit i (tcpSyn ||| tcpAckFlag) 0 (n.conns i)] ∧
      c = (n.conns i).record (tcpSyn ||| tcpAckFlag) 0 bytes now) ∨
    (c.sndNxt = (n.conns i).sndNxt ∧ c.retxSeq = (n.conns i).retxSeq ∧ c.retx = (n.conns i).retx ∧
      (∀ e ∈ es, e.opens i = false ∧ e.emits i = false) ∧
      (c.retxLen = (n.conns i).retxLen ∨
        (∃ srcIp seg, es = [.delivered i srcIp seg (n.conns i)] ∧ seg.isRst = false ∧
          (n.conns i).releases seg = true ∧ c.retxLen = 0) ∨
        (∃ e, es = [e] ∧ e.drops i = true ∧ c = (n.conns i).abort))) := by
  cases h with
  | passive srcIp seg ns hfind hsyn hlisten => exact .inl ⟨srcIp, seg, ns, rfl, hlisten, rfl⟩
  | answer srcIp seg bytes now hhead hstate hbytes =>
    exact .inr (.inl ⟨srcIp, seg, bytes, now, hhead, hstate, hbytes, rfl, rfl⟩)
  | reset srcIp seg hfind hrst =>
    refine .inr (.inr ⟨rfl, rfl, rfl, by simp [Event.opens, Event.emits],
      .inr (.inr ⟨_, rfl, ?_, rfl⟩)⟩)
    simp [drops, hrst]
  | giveUp hretx =>
    refine .inr (.inr ⟨rfl, rfl, rfl, by simp [Event.opens, Event.emits],
      .inr (.inr ⟨_, rfl, ?_, rfl⟩)⟩)
    simp [drops]
  | ack srcIp seg hfind hrst =>
    refine .inr (.inr ⟨by simp, by simp, by simp, by simp [Event.opens, Event.emits], ?_⟩)
    by_cases hrel : (n.conns i).releases seg = true
    · exact .inr (.inl ⟨srcIp, seg, rfl, hrst, hrel, by simp [hrel]⟩)
    · exact .inl (by simp [hrel])
  | _ => exact .inr (.inr ⟨rfl, rfl, rfl, by simp [Event.opens, Event.emits], .inl rfl⟩)

theorem Served.done_of_drops (h : Served n tr i es c) (he : e ∈ es) (hd : e.drops i = true) :
    c.state = .done := by
  cases h with
  | reset | giveUp => rfl
  | answer => obtain rfl | rfl := mem_pair.1 he <;> simp [drops] at hd
  | _ => simp_all [drops]

theorem Served.done
    (h : Served n tr i es c) (hdone : (n.conns i).state = .done) : c.state = .done := by
  cases h with
  | passive srcIp seg ns hfind hsyn hlisten =>
    rw [(listener_spec hlisten).2.1] at hdone
    exact absurd hdone (by decide)
  | answer srcIp seg bytes now hhead hstate => rwa [record_state]
  | ack srcIp seg hfind hrst => rw [ackUpdate_state_of_ne _ _ (by rw [hdone]; decide), hdone]
  | synAck srcIp seg c tr' htr hc hrst hstate =>
    rw [hstate] at hdone
    exact absurd hdone (by decide)
  | reset | giveUp | finish | closed => rfl
  | _ => exact hdone

theorem Event.of_slot_ne (h : e.slot ≠ some i) :
    e.opens i = false ∧ e.emits i = false ∧ e.drops i = false := by
  cases e <;> simp_all [slot, opens, emits, drops]

/-- The pump sends nothing new on a connection that is neither listening nor just opened. -/
theorem Pumps.lastEmit (h : Pumps x y) (hstate : (x.state.conns i).state ≠ .listen)
    (hhead : ∀ srcIp seg, x.trace.head? ≠ some (.passive i srcIp seg)) :
    lastEmit i y.trace = lastEmit i x.trace := by
  refine (h.track (i := i) (I := fun c tr => c.state ≠ .listen ∧
    (∀ srcIp seg, tr.head? ≠ some (.passive i srcIp seg)) ∧
    Net.lastEmit i tr = Net.lastEmit i x.trace) ?_ ?_ ⟨hstate, hhead, rfl⟩).2.2
  · intro c e tr he hI
    refine ⟨hI.1, fun srcIp seg heq => he ?_, ?_⟩
    · simp only [head?_cons, Option.some.injEq] at heq
      subst heq
      rfl
    · exact (lastEmit_cons tr (of_slot_ne he).1 (of_slot_ne he).2.1).trans hI.2.2
  · intro n tr es c hs hI
    obtain ⟨hstate, hhead, hlast⟩ := hI
    cases hs with
    | passive srcIp seg ns hfind hsyn hlisten => exact absurd (listener_spec hlisten).2.1 hstate
    | answer srcIp seg bytes now hh => exact absurd hh (hhead srcIp seg)
    | ack srcIp seg hfind hrst =>
      exact ⟨fun heq => hstate (ackUpdate_state_eq _ _ (by decide) heq), by simp, hlast⟩
    | synAck | finish | closed => exact ⟨by simp [synAck, finish], hhead, hlast⟩
    | reset | giveUp => exact ⟨by simp [abort], by simp, hlast⟩
    | _ => exact ⟨hstate, by simp, hlast⟩

/-! ### The log only grows -/

theorem Pumps.trace (h : Pumps x y) : ∃ es, y.trace = es ++ x.trace := by
  induction h with
  | refl => exact ⟨[], rfl⟩
  | tail _ hxy ih =>
    obtain ⟨es, hes⟩ := ih
    cases hxy with
    | quiet => exact ⟨es, hes⟩
    | serve n tr i es' c h => exact ⟨es' ++ es, by rw [append_assoc, ← hes]⟩

theorem disturbed_append (es : List Event)
    (h : disturbed i (es ++ tr) = false) : disturbed i tr = false := by
  induction es with
  | nil => exact h
  | cons e es ih =>
    rw [cons_append, disturbed, Bool.or_eq_false_iff] at h
    exact ih h.2

theorem emitting_append (tr : List Event)
    (h : emitting i es = true) : emitting i (es ++ tr) = true := by
  induction es with
  | nil => simp [emitting] at h
  | cons e es ih =>
    cases e with
    | emit j flags len c =>
      simp only [cons_append, emitting, Bool.or_eq_true] at h ⊢
      exact h.imp_right ih
    | _ => simp_all [emitting]

theorem disturbed_of_append (h : disturbed i (es ++ tr) = false) : disturbed i es = false := by
  induction es with
  | nil => rfl
  | cons e es ih =>
    rw [cons_append, disturbed, Bool.or_eq_false_iff] at h
    have hemit : (e.drops i && emitting i es) = false := by
      by_contra hne
      rw [Bool.not_eq_false, Bool.and_eq_true] at hne
      rw [hne.1, emitting_append tr hne.2] at h
      exact absurd h.1 (by decide)
    rw [disturbed, hemit, ih h.2]
    rfl

/-! What happened before a segment was sent does not matter to it. -/

theorem sinceEmit_cut {a : Event} (ha : a.emits i = true) (es tr : List Event) :
    sinceEmit i (es ++ a :: tr) = sinceEmit i (es ++ [a]) := by
  induction es with
  | nil => simp [ha]
  | cons e es ih => simp only [cons_append, sinceEmit_cons, ih]

theorem emitting_cut {a : Event} (ha : a.emits i = true) (es tr : List Event) :
    emitting i (es ++ a :: tr) = emitting i (es ++ [a]) := by
  induction es with
  | nil => cases a <;> simp_all [emitting, emits]
  | cons e es ih => cases e <;> simp_all [emitting]

/-! ## The pieces of the calls -/

/-- When a call makes `tcp_emit` send a segment that occupies sequence numbers. -/
inductive Emits (n : Stack) (tr : List Event) (i : Slot) : UInt8 → Nat → Prop where
  /-- the SYN of a record just filled in -/
  | syn (conns : Slot → TcpConn) (hhead : tr.head? = some (.opened i (n.conns i) conns))
      (hstate : (n.conns i).state = .synSent) : Emits n tr i tcpSyn 0
  /-- the first segment of a `net_tcp_send`, with nothing done since the call was made -/
  | first (id : Int) (data : List UInt8) (len : Nat) (hid : slotOf id = some i)
      (hhead : tr.head? = some (.called (.tcpSend id data) n.conns))
      (huse : (n.conns i).inUse = true) (hstate : (n.conns i).state = .established)
      (hlen : len ≠ 0) (hdata : len ≤ data.length) :
      Emits n tr i (tcpAckFlag ||| tcpPsh) len
  /-- a later one -/
  | next (len : Nat) (hretx : (n.conns i).retxLen = 0)
      (hstate : (n.conns i).state = .established) (hlen : len ≠ 0) :
      Emits n tr i (tcpAckFlag ||| tcpPsh) len
  /-- the FIN of a `net_tcp_close` -/
  | fin (id : Int) (hid : slotOf id = some i)
      (hhead : tr.head? = some (.called (.tcpClose id) n.conns))
      (huse : (n.conns i).inUse = true) (hstate : (n.conns i).state = .established) :
      Emits n tr i (tcpFin ||| tcpAckFlag) 0

/-- The last segment sent on a connection that is past its handshake: it is outstanding, or
was acknowledged, or the connection was finished at once. -/
structure InFlight (i : Slot) (v : UInt8 × Nat × TcpConn) (c : TcpConn) (tr : List Event) :
    Prop where
  listen : c.state ≠ .listen
  synRcvd : c.state ≠ .synRcvd
  last : lastEmit i tr = some v
  nxt : c.sndNxt = v.2.2.sndNxt + UInt32.ofNat (TcpConn.consumed v.1 v.2.1)
  fate : (c.retxLen ≠ 0 ∧ c.retxSeq = c.sndNxt) ∨ AckSeen i c.sndNxt tr ∨ DropSeen i tr

/-- What a call may do to connection `i` in one piece. -/
inductive Acted (n : Stack) (tr : List Event) (i : Slot) : List Event → TcpConn → Prop where
  | connect (dstIp : UInt32) (port : UInt16) (iss : UInt32) (hfree : (n.conns i).inUse = false) :
      Acted n tr i [.opened i (.connecting dstIp port n.ephemeralNext iss) n.conns]
        (.connecting dstIp port n.ephemeralNext iss)
  | listen (port : UInt16) (hfree : (n.conns i).inUse = false) :
      Acted n tr i [.opened i (.listening port) n.conns] (.listening port)
  | emit (flags : UInt8) (len : Nat) (bytes : List UInt8) (now : UInt64)
      (h : Emits n tr i flags len) (hbytes : bytes ≠ []) :
      Acted n tr i [.sent i bytes (n.conns i), .emit i flags len (n.conns i)]
        ((n.conns i).record flags len bytes now)
  /-- its `tcp_emit` returns -/
  | emitted : Acted n tr i [.emitted i] (n.conns i)
  /-- the connection waits for the answers to its FIN; reset or given up during the
  transmission, it was disturbed -/
  | waitFin (c : TcpConn) (hfly : InFlight i (tcpFin ||| tcpAckFlag, 0, c) (n.conns i) tr)
      (huse : (n.conns i).inUse = true) (hdrop : DropSeen i tr → disturbed i tr = true) :
      Acted n tr i [] (n.conns i).waitFin
  | drain (k : Nat) (hk : k ≤ (n.conns i).rx.len) :
      Acted n tr i [.received i ((n.conns i).rx.peek k)] ((n.conns i).drain k)
  | release : Acted n tr i [.released i (n.conns i)] (n.conns i).release

theorem Acted.slot (h : Acted n tr i es c) : ∀ e ∈ es, e.slot = some i := by
  cases h <;> simp [slot]

/-- The segment with `chunk` from offset `off` of some data on was sent, the data being numbered
from `base`, and after that the peer acknowledged its end or more. -/
def ChunkAcked (i : Slot) (base : UInt32) (off : Nat) (chunk : List UInt8) (es : List Event) :
    Prop :=
  ∃ c myIp es₁ es₂ srcIp seg c', c.sndNxt = base + UInt32.ofNat off ∧
    es = es₂ ++ .sent i (c.segment myIp (tcpAckFlag ||| tcpPsh) chunk) c :: es₁ ∧
    .delivered i srcIp seg c' ∈ es₂ ∧ seg.isRst = false ∧ seg.isAck = true ∧
    seqLt seg.ack (base + UInt32.ofNat (off + chunk.length)) = false

/-- Byte `j` of `data` was acknowledged. -/
def Acked (i : Slot) (base : UInt32) (data : List UInt8) (j : Nat) (es : List Event) : Prop :=
  ∃ off chunk, off ≤ j ∧ j < off + chunk.length ∧ chunk <+: data.drop off ∧
    ChunkAcked i base off chunk es

def Event.isCalled : Event → Bool
  | .called _ _ => true
  | _ => false

/-- What is known when a call returns. -/
def Returns (n : Stack) (tr : List Event) : ApiCall → Reply → Prop
  | .tcpRecv id cap _, r => r.ret = 0 → cap.toNat = 0 ∨ ∃ i, slotOf id = some i ∧
      (n.conns i).rx.len = 0 ∧ ((n.conns i).peerFin = true ∨ (n.conns i).state = .done)
  | .tcpSend id data, r => 0 < r.ret → ∃ i, slotOf id = some i ∧
      ∀ es conns tr', tr = es ++ .called (.tcpSend id data) conns :: tr' →
        (∀ e ∈ es, e.isCalled = false) → disturbed i es = false →
        ∀ j : Nat, (j : Int) < r.ret → Acked i (conns i).sndNxt data j es
  | _, _ => True

/-- One piece of the pump or of a call. -/
inductive Work : Point → Point → Prop where
  | pump {x y : Point} (h : Pump x y) : Work x y
  | act (n n' : Stack) (tr : List Event) (i : Slot) (es : List Event) (c : TcpConn)
      (hconns : n'.conns = n.conns) (hsocks : n'.socks = n.socks) (h : Acted n tr i es c) :
      Work ⟨n, tr⟩ ⟨n'.setConn i c, es ++ tr⟩
  | udp (n n' : Stack) (tr : List Event) (op : UdpOp) (henabled : op.Enabled n)
      (h : n' = (n.udpDo op).2) (hconns : n'.conns = n.conns) : Work ⟨n, tr⟩ ⟨n', tr⟩

/-- One step of the kernel: it makes a call, works on it, or gets its result. -/
inductive Api : Point → Point → Prop where
  | work {x y : Point} (h : Work x y) : Api x y
  | called (n : Stack) (tr : List Event) (a : ApiCall) :
      Api ⟨n, tr⟩ ⟨n, .called a n.conns :: tr⟩
  | returned (n : Stack) (tr : List Event) (a : ApiCall) (r : Reply) (h : Returns n tr a r) :
      Api ⟨n, tr⟩ ⟨n, .returned a r :: tr⟩

theorem Event.isCalled_of_slot (h : e.slot ≠ none) : e.isCalled = false := by
  cases e <;> simp_all [slot, isCalled]

theorem Work.trace (h : Work x y) : ∃ es, y.trace = es ++ x.trace ∧ ∀ e ∈ es, e.slot ≠ none := by
  cases h with
  | pump h =>
    cases h with
    | quiet => exact ⟨[], rfl, by simp⟩
    | serve n tr i es c h => exact ⟨es, rfl, fun e he => by simp [h.slot e he]⟩
  | act n n' tr i es c hconns hsocks h => exact ⟨es, rfl, fun e he => by simp [h.slot e he]⟩
  | udp => exact ⟨[], rfl, by simp⟩

theorem Work.trace_chain (h : Relation.ReflTransGen Work x y) :
    ∃ es, y.trace = es ++ x.trace ∧ ∀ e ∈ es, e.isCalled = false := by
  induction h with
  | refl => exact ⟨[], rfl, by simp⟩
  | tail _ hxy ih =>
    obtain ⟨es, hes, hno⟩ := ih
    obtain ⟨es', hes', hno'⟩ := hxy.trace
    refine ⟨es' ++ es, by rw [hes', hes, append_assoc], ?_⟩
    intro e he
    exact (mem_append.1 he).elim (fun h => isCalled_of_slot (hno' e h)) (hno e)

end JuampiOs.Net
