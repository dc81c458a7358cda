import JuampiOs.Net.Receive

/-!
# Handshakes

No run makes a connection ESTABLISHED without the segments of a handshake, whoever sends what.
-/

namespace JuampiOs.Net

open Lib Lib.Lang List Event TcpConn

variable {i : Slot} {n : Stack} {es tr : List Event} {c c' : TcpConn} {x : Point}

/-- The record is a listener's, opened by a SYN. -/
def Event.isSynTo (i : Slot) : Event → Bool
  | .passive j _ seg => j = i && seg.isSyn
  | _ => false

def Event.isAckTo (i : Slot) : Event → Bool
  | .delivered j _ seg _ => j = i && seg.isAck && !seg.isRst
  | _ => false

/-- A SYN-ACK, for a record that has sent its SYN. -/
def Event.isSynAckTo (i : Slot) : Event → Bool
  | .delivered j _ seg c => j = i && c.state = .synSent && seg.isSyn && seg.isAck && !seg.isRst
  | _ => false

/-- It is in the log since the record was filled in. -/
def Seen (i : Slot) (tr : List Event) (p : Event → Bool) : Prop := ∃ e ∈ since i tr, p e = true

/-- A SYN opened the record and an acknowledgement came back, or a SYN-ACK answered the SYN that
was sent. -/
def Handshake (i : Slot) (tr : List Event) : Prop :=
  Seen i tr (isSynTo i) ∧ Seen i tr (isAckTo i) ∨ Seen i tr (isSynAckTo i)

/-- What the log holds of a connection that has got this far. -/
structure Shaken (i : Slot) (c : TcpConn) (tr : List Event) : Prop where
  synRcvd : c.state = .synRcvd → Seen i tr (isSynTo i)
  established : c.state = .established → Handshake i tr

theorem Seen.append (hes : ∀ e ∈ es, e.opens i = false) {p : Event → Bool} (h : Seen i tr p) :
    Seen i (es ++ tr) p :=
  h.imp fun _ he => ⟨mem_since_append hes he.1, he.2⟩

/-- A piece that leaves the state, or moves on from the handshake. -/
theorem Shaken.update (h : Shaken i c tr)
    (hstate : c'.state = c.state ∨ c'.state ≠ .synRcvd ∧ c'.state ≠ .established)
    (hes : ∀ e ∈ es, e.opens i = false := by simp [opens]) : Shaken i c' (es ++ tr) where
  synRcvd hs := (h.synRcvd (hstate.elim (· ▸ hs) fun hne => absurd hs hne.1)).append hes
  established hs := by
    have hold := h.established (hstate.elim (· ▸ hs) fun hne => absurd hs hne.2)
    exact hold.imp (.imp (·.append hes) (·.append hes)) (·.append hes)

theorem Shaken.served (hs : Served n tr i es c) (h : Shaken i (n.conns i) tr) :
    Shaken i c (es ++ tr) := by
  cases hs with
  | passive srcIp seg ns hfind hsyn hlisten =>
    exact ⟨fun _ => ⟨.passive i srcIp seg, by simp [opens], by simp [isSynTo, hsyn]⟩,
      by simp [passiveOpen]⟩
  | ack srcIp seg hfind hrst =>
    have hold : Shaken i (n.conns i) ([.delivered i srcIp seg (n.conns i)] ++ tr) :=
      h.update (.inl rfl)
    refine ⟨fun hs => hold.synRcvd (ackUpdate_state_eq _ _ (by decide) hs), fun hs => ?_⟩
    -- the acknowledgement completes a passive open, or leaves the state
    rw [ackUpdate_state] at hs
    split at hs
    · rename_i hack
      exact .inl ⟨hold.synRcvd hack.1, _, mem_cons_self .., by simp [isAckTo, hack.2.1, hrst]⟩
    · exact hold.established hs
  | synAck srcIp seg d tr' htr hd hrst hstate hsyn hack =>
    have hsent : d.state = .synSent := ackUpdate_state_eq d seg (by decide) (hd ▸ hstate)
    refine ⟨by simp, fun _ => .inr ⟨.delivered i srcIp seg d, by simp [htr, opens], ?_⟩⟩
    simp [isSynAckTo, hsent, hsyn, hack, hrst]
  | answer => exact h.update (.inl (record_state ..))
  | reset | giveUp | finish | closed => exact h.update (.inr (by simp))
  | sent | emitted | accept | acceptFin | resend => exact h.update (.inl rfl)

theorem Shaken.acted (ha : Acted n tr i es c) (h : Shaken i (n.conns i) tr) :
    Shaken i c (es ++ tr) := by
  cases ha with
  | connect | listen => constructor <;> (intro hs; cases hs)
  | emit => exact h.update (.inl (record_state ..))
  | waitFin => exact h.update (.inr (by simp))
  | emitted | drain | release => exact h.update (.inl rfl)

theorem shaken_tracked (i : Slot) : Tracked i (Shaken i) where
  zero := ⟨nofun, nofun⟩
  skips c e tr he h := show Shaken i c ([e] ++ tr) from
    h.update (.inl rfl) (forall_mem_singleton.2 (of_slot_ne he).1)
  served _ _ _ _ hs h := h.served hs
  acted _ _ _ _ ha h := h.acted ha

end JuampiOs.Net
