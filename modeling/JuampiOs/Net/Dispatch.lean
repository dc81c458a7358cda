import JuampiOs.Net.Code

/-!
# Which frames reach the upper layers

`ether_input` and `ip_input` hand the payload of a packet to `icmp_input`, `udp_input` or
`tcp_input`. A handler is invoked when the program is that handler's program, whatever the handlers
are (`Invokes`).

`invokes_iff` says for which frames that is: those that pass the checks the two functions make
(`Accepted`). The checks leave out the checksum of the header and its fragment field, so what
reaches a handler is a valid packet exactly if those two happen to be right
(`invokes_valid_iff`).
-/

namespace JuampiOs.Net

open Lib Lib.Wire Lang EthHdr

/-! ## What reaches a handler -/

/-- In the state `n` the frame is handed to the handler of `p`, with this source address and
these bytes. -/
def Invokes (n : Stack) (frame : List UInt8) (p : Layer4) (src : UInt32) (l4 : List UInt8) : Prop :=
  ∀ h : Handlers, atState n (etherInputWith h frame) = atState n (h p src l4)

/-- What it means for a run: `ether_input` and the handler go on in the same way. -/
theorem Invokes.runs {x : Point} {frame : List UInt8} {p : Layer4} {src : UInt32}
    {l4 : List UInt8} (h : Invokes x.state frame p src l4) :
    ∃ rest, Lang.Reaches body ⟨x, etherInput frame⟩ ⟨x, rest⟩ ∧
      Lang.Reaches body ⟨x, p.input src l4⟩ ⟨x, rest⟩ := by
  refine ⟨_, reaches_atState x (etherInput frame), ?_⟩
  rw [etherInput, h Layer4.input]
  exact reaches_atState x _

/-! ## The fields of a frame -/

section Fields

variable (n : Stack) (frame : List UInt8)

/-- The IPv4 packet in a frame. -/
def packet : List UInt8 := frame.drop ethHdrSize

def ipHdr : IpHdr := IpHdr.parse (packet frame)

/-- The length of the IPv4 header, options included. -/
def ihl : Nat := ((ipHdr frame).verIhl &&& 0x0F).toNat * 4

def totLen : Nat := (ipHdr frame).totLen.toNat

/-- The bytes from the end of the header to `tot_len`. -/
def l4Bytes : List UInt8 :=
  ((packet frame).drop (ihl frame)).take (totLen frame - ihl frame)

/-- The handler `ip_input` picks. -/
def layer4 : Option Layer4 :=
  if (ipHdr frame).proto = ipProtoIcmp then some .icmp
  else if (ipHdr frame).proto = ipProtoUdp then some .udp
  else if (ipHdr frame).proto = ipProtoTcp then some .tcp
  else none

/-- The frame is for this host or for all. -/
def ForUs : Prop :=
  macEq (parse frame).dst n.myMac = true ∨ macEq (parse frame).dst bcastMac = true

/-- An IPv4 packet for this host or for all. -/
def Ipv4ForUs : Prop :=
  (parse frame).type = ethIp ∧ (ipHdr frame).verIhl >>> 4 = 4 ∧
    ((ipHdr frame).dst = n.myIp ∨ (ipHdr frame).dst = 0xFFFFFFFF)

/-- The header, and the bytes up to `tot_len`, are inside the frame. -/
def Inside : Prop :=
  ipHdrSize ≤ ihl frame ∧ ihl frame ≤ totLen frame ∧ ethHdrSize + totLen frame ≤ frame.length

/-- The checks of `ether_input` and `ip_input`. -/
def Accepted : Prop :=
  ForUs n frame ∧ Ipv4ForUs n frame ∧ Inside frame

/-- The checksum over the header comes out right. -/
def ChecksumOk : Prop := inetCsum ((packet frame).take (ihl frame)) = 0

/-- The packet is a fragment: more follow, or it has an offset. -/
def Fragment : Prop := (ipHdr frame).frag &&& 0x3FFF ≠ 0

instance : Decidable (ForUs n frame) := by
  unfold ForUs; infer_instance

instance : Decidable (Ipv4ForUs n frame) := by
  unfold Ipv4ForUs; infer_instance

instance : Decidable (Inside frame) := by
  unfold Inside; infer_instance

instance : Decidable (Accepted n frame) := by
  unfold Accepted; infer_instance

instance : Decidable (ChecksumOk frame) := by
  unfold ChecksumOk; infer_instance

instance : Decidable (Fragment frame) := by
  unfold Fragment; infer_instance

end Fields

/-! ## Which frames are handed on -/

section Dispatch

variable {n : Stack} {frame : List UInt8}

theorem atState_stack {α : Type} (n : Stack) (f : Stack → Code α) :
    atState n (stack >>= f) = atState n (f n) := rfl

theorem length_packet (frame : List UInt8) : (packet frame).length = frame.length - ethHdrSize :=
  List.length_drop

theorem dispatch_eq (h : Handlers) (frame : List UInt8) (src : UInt32) (l4 : List UInt8) :
    atState n (if (ipHdr frame).proto = ipProtoIcmp then h .icmp src l4
      else if (ipHdr frame).proto = ipProtoUdp then h .udp src l4
      else if (ipHdr frame).proto = ipProtoTcp then h .tcp src l4
      else pure ()) =
      match layer4 frame with
      | some p => atState n (h p src l4)
      | none => pure () := by
  unfold layer4
  split
  · rfl
  · split
    · rfl
    · split <;> rfl

theorem ipInputWith_packet (h : Handlers) (frame : List UInt8) :
    ipInputWith h (packet frame) =
      if (packet frame).length < ipHdrSize then pure ()
      else if (ipHdr frame).verIhl >>> 4 ≠ 4 then pure ()
      else if ihl frame < ipHdrSize ∨ (packet frame).length < ihl frame then pure ()
      else stack >>= fun n =>
        if (ipHdr frame).dst ≠ n.myIp ∧ (ipHdr frame).dst ≠ 0xFFFFFFFF then pure ()
        else if (packet frame).length < totLen frame ∨ totLen frame < ihl frame then pure ()
        else if (ipHdr frame).proto = ipProtoIcmp then h .icmp (ipHdr frame).src (l4Bytes frame)
        else if (ipHdr frame).proto = ipProtoUdp then h .udp (ipHdr frame).src (l4Bytes frame)
        else if (ipHdr frame).proto = ipProtoTcp then h .tcp (ipHdr frame).src (l4Bytes frame)
        else pure () := rfl

theorem etherInputWith_accepted (h : Handlers) (hacc : Accepted n frame) :
    atState n (etherInputWith h frame) =
      match layer4 frame with
      | some p => atState n (h p (ipHdr frame).src (l4Bytes frame))
      | none => pure () := by
  obtain ⟨hmac, ⟨htype, hver, hdst⟩, hihl, htot, hlen⟩ := hacc
  have hpacket := length_packet frame
  unfold ipHdrSize at hihl
  have hmac' : ¬ (!macEq (parse frame).dst n.myMac &&
      !macEq (parse frame).dst bcastMac) = true := by
    rcases hmac with hmac | hmac <;> simp [hmac]
  rw [etherInputWith, if_neg (by unfold ethHdrSize; omega), atState_stack, if_neg hmac', htype,
    if_neg (by decide), if_pos rfl]
  show atState n (ipInputWith h (packet frame)) = _
  rw [ipInputWith_packet, if_neg (by unfold ipHdrSize; omega), if_neg (not_not.mpr hver),
    if_neg (by unfold ipHdrSize; omega), atState_stack, if_neg (by tauto), if_neg (by omega)]
  exact dispatch_eq h frame _ _

theorem atState_ite_congr {c : Prop} [Decidable c] {p q q' : Code Unit}
    (h : ¬ c → atState n q = atState n q') :
    atState n (if c then p else q) = atState n (if c then p else q') := by
  split
  · rfl
  · exact h ‹_›

theorem etherInputWith_dropped (h h' : Handlers) (hacc : ¬ Accepted n frame) :
    atState n (etherInputWith h frame) = atState n (etherInputWith h' frame) := by
  refine atState_ite_congr fun hlen => ?_
  rw [atState_stack, atState_stack]
  refine atState_ite_congr fun hmac => atState_ite_congr fun _ => ?_
  by_cases htype : (parse frame).type = ethIp
  · rw [if_pos htype, if_pos htype]
    show atState n (ipInputWith h (packet frame)) =
      atState n (ipInputWith h' (packet frame))
    rw [ipInputWith_packet, ipInputWith_packet]
    refine atState_ite_congr fun hip => atState_ite_congr fun hver => atState_ite_congr fun hihl => ?_
    rw [atState_stack, atState_stack]
    refine atState_ite_congr fun hdst => atState_ite_congr fun htot => absurd ?_ hacc
    -- every check was passed
    have hpacket := length_packet frame
    have hforus : ForUs n frame := by
      unfold ForUs
      simpa [or_iff_not_imp_left] using hmac
    exact ⟨hforus, ⟨htype, not_not.mp hver, by tauto⟩, by omega, by omega, by omega⟩
  · rw [if_neg htype, if_neg htype]

/-- **Which frames reach which handler.** -/
theorem invokes_iff {p : Layer4} {src : UInt32} {l4 : List UInt8} :
    Invokes n frame p src l4 ↔
      Accepted n frame ∧ layer4 frame = some p ∧ src = (ipHdr frame).src ∧ l4 = l4Bytes frame := by
  constructor
  · intro hinv
    -- handlers that show in their program what they were given
    let showSrc : Handlers := fun _ src _ => .op (.call (.arpWait src 0)) fun _ => .pure ()
    let showData : Handlers := fun _ _ l4 => .op (.call (.sendLoop 0 l4 0)) fun _ => .pure ()
    let showLayer : Handlers := fun p _ _ =>
      .op (.call (.pingWait (if p = .icmp then 0 else if p = .udp then 1 else 2))) fun _ => .pure ()
    have hsrc := hinv showSrc
    have hdata := hinv showData
    have hlayer := hinv showLayer
    by_cases hacc : Accepted n frame
    · rw [etherInputWith_accepted _ hacc] at hsrc hdata hlayer
      cases hl : layer4 frame with
      | none =>
        rw [hl] at hsrc
        cases hsrc
      | some p' =>
        rw [hl] at hsrc hdata hlayer
        injection hsrc with hsrc
        injection hdata with hdata
        injection hlayer with hlayer
        injection hlayer with hlayer
        injection hlayer with hlayer
        have hp : p' = p := by
          cases p' <;> cases p <;> first | rfl | (exact absurd hlayer (by decide))
        refine ⟨hacc, congrArg some hp, ?_, ?_⟩
        · injection hsrc with hsrc
          injection hsrc with hsrc
          exact hsrc.symm
        · injection hdata with hdata
          injection hdata with _ hdata
          exact hdata.symm
    · -- the program of a dropped frame does not depend on the handlers
      rw [etherInputWith_dropped showSrc showData hacc, hdata] at hsrc
      cases hsrc
  · rintro ⟨hacc, hlayer, rfl, rfl⟩ h
    rw [etherInputWith_accepted h hacc, hlayer]

/-- What a handler should be given: the payload of a whole, undamaged IPv4 packet for us. -/
structure ValidDelivery (n : Stack) (frame : List UInt8) (src : UInt32) (l4 : List UInt8) : Prop where
  forUs : ForUs n frame
  ipv4 : Ipv4ForUs n frame
  checksum : ChecksumOk frame
  whole : ¬ Fragment frame
  inside : Inside frame
  src_eq : src = (ipHdr frame).src
  payload : l4 = l4Bytes frame

/-- **IPv4 input.** Whatever a frame hands to a handler is the payload of a valid packet,
exactly if the frame does not get that far with a wrong header checksum or as a fragment: the
code looks at neither. -/
theorem invokes_valid_iff (n : Stack) (frame : List UInt8) :
    (∀ p src l4, Invokes n frame p src l4 → ValidDelivery n frame src l4) ↔
      (Accepted n frame → layer4 frame ≠ none → ChecksumOk frame ∧ ¬ Fragment frame) := by
  constructor
  · intro hvalid hacc hlayer
    obtain ⟨p, hp⟩ := Option.ne_none_iff_exists'.mp hlayer
    have hdelivered := hvalid p _ _ (invokes_iff.mpr ⟨hacc, hp, rfl, rfl⟩)
    exact ⟨hdelivered.checksum, hdelivered.whole⟩
  · intro hcond p src l4 hinv
    obtain ⟨hacc, hp, hsrc, hl4⟩ := invokes_iff.mp hinv
    obtain ⟨hsum, hwhole⟩ := hcond hacc (by simp [hp])
    exact ⟨hacc.1, hacc.2.1, hsum, hwhole, hacc.2.2, hsrc, hl4⟩

end Dispatch

/-! ## Frames that should have been dropped -/

/-- A broadcast UDP packet with a payload of `l4`, and a header with this fragment field and
checksum. -/
def broadcastFrame (frag csum : UInt16) (l4 : List UInt8) : List UInt8 :=
  let ip : IpHdr :=
    { verIhl := 0x45, tos := 0, totLen := UInt16.ofNat (ipHdrSize + l4.length), id := 1
      frag := frag, ttl := 64, proto := ipProtoUdp, csum := csum, src := 0x0A000202
      dst := 0xFFFFFFFF }
  (mk bcastMac (fun _ => 0) ethIp).bytes ++ ip.bytes ++ l4

/-- A packet with a wrong checksum, and the second fragment of a packet, are handed to
`udp_input`. -/
theorem delivers_damaged_and_fragment :
    (Invokes (.boot fun _ => 0) (broadcastFrame 0 0 [1, 2, 3, 4, 5, 6, 7, 8]) .udp 0x0A000202
        [1, 2, 3, 4, 5, 6, 7, 8] ∧
      ¬ ChecksumOk (broadcastFrame 0 0 [1, 2, 3, 4, 5, 6, 7, 8])) ∧
    (Invokes (.boot fun _ => 0) (broadcastFrame 1 0xCE6E [1, 2, 3, 4, 5, 6, 7, 8]) .udp 0x0A000202
        [1, 2, 3, 4, 5, 6, 7, 8] ∧
      ChecksumOk (broadcastFrame 1 0xCE6E [1, 2, 3, 4, 5, 6, 7, 8]) ∧
      Fragment (broadcastFrame 1 0xCE6E [1, 2, 3, 4, 5, 6, 7, 8])) := by
  refine ⟨⟨invokes_iff.mpr (by decide), by decide⟩, invokes_iff.mpr (by decide), by decide, by decide⟩

/-! ## From one stack to another -/

/-- The number by which `ip_input` picks the handler. -/
def Layer4.proto : Layer4 → UInt8
  | .icmp => ipProtoIcmp
  | .udp => ipProtoUdp
  | .tcp => ipProtoTcp

theorem IpHdr.parse_bytes (h : IpHdr) (data : List UInt8) : parse (h.bytes ++ data) = h := by
  simp [parse, bytes, be16, be32, raw16, rd16, rd32, rdRaw16]

theorem EthHdr.parse_bytes (h : EthHdr) (data : List UInt8) : parse (h.bytes ++ data) = h := by
  have hmac : ∀ m : Mac, List.ofFn m = [m 0, m 1, m 2, m 3, m 4, m 5] := fun _ => rfl
  simp only [parse, bytes, hmac, be16, rd16]
  obtain ⟨dst, src, type⟩ := h
  refine (mk.injEq ..).mpr ⟨?_, ?_, by simp⟩ <;>
  · funext k
    rcases k with ⟨_ | _ | _ | _ | _ | _ | k, hk⟩ <;> first | rfl | omega

/-- **A packet arrives as it was sent.** The frame that `ip_emit` hands to the card, if it fits
its buffers, is not a fragment, and on any stack it is addressed to `ether_input` runs the handler
of its protocol on the bytes that were to be sent, however the frame was padded. -/
theorem ipEmit_delivered (x : Point) {dmac : Mac} {srcIp dstIp : UInt32} {l4 : List UInt8}
    (p : Layer4) (hlen : ethHdrSize + ipHdrSize + l4.length ≤ 1600) :
    ∃ y sent, Lang.Reaches body ⟨x, ipEmit dmac srcIp dstIp p.proto l4⟩ ⟨y, tx sent⟩ ∧ ∀ pad,
      ¬ Fragment (sent ++ pad) ∧ ∀ r : Stack, (dmac = r.myMac ∨ dmac = bcastMac) →
        (dstIp = r.myIp ∨ dstIp = 0xFFFFFFFF) → Invokes r (sent ++ pad) p srcIp l4 := by
  refine ⟨_, _, .head (.get x _) (.head (.commit x _ _ _) (.head (.get _ _) .refl)), fun pad => ?_⟩
  generalize hip : IpHdr.mk _ _ _ _ _ _ _ (inetCsum _) _ _ = ip
  rw [List.append_assoc, List.append_assoc]
  set frame := (mk dmac _ ethIp).bytes ++ (ip.bytes ++ (l4 ++ pad))
  have heth : parse frame = ⟨dmac, x.state.myMac, ethIp⟩ := parse_bytes _ _
  have hhdr : ipHdr frame = ip := IpHdr.parse_bytes ip _
  have hpacket : packet frame = ip.bytes ++ (l4 ++ pad) := rfl
  have hihl : ihl frame = 20 := by
    rw [ihl, hhdr, ← hip]
    show ((0x45 : UInt8) &&& 0x0F).toNat * 4 = 20
    rfl
  have htot : totLen frame = 20 + l4.length := by
    rw [totLen, hhdr, ← hip, UInt16.toNat_ofNat']
    exact Nat.mod_eq_of_lt (by unfold ipHdrSize ethHdrSize at *; omega)
  refine ⟨?_, fun r hmac hdst => invokes_iff.mpr ⟨⟨?_, ?_, ?_⟩, ?_, ?_, ?_⟩⟩
  · unfold Fragment
    rw [hhdr, ← hip]
    show ¬ (0x4000 : UInt16) &&& 0x3FFF ≠ 0
    decide
  · unfold ForUs
    rw [heth]
    rcases hmac with rfl | rfl <;> simp [macEq]
  · unfold Ipv4ForUs
    rw [heth, hhdr, ← hip]
    exact ⟨rfl, show (0x45 : UInt8) >>> 4 = 4 by decide, hdst⟩
  · unfold Inside
    rw [hihl, htot]
    have hsize := length_packet frame
    rw [hpacket, List.length_append, List.length_append, show ip.bytes.length = 20 from rfl] at hsize
    unfold ipHdrSize ethHdrSize at *
    omega
  · unfold layer4
    rw [hhdr, ← hip]
    cases p <;> rfl
  · rw [hhdr, ← hip]
  · rw [l4Bytes, hihl, htot, hpacket]
    simp [IpHdr.bytes, be16, be32, raw16]

/-- A datagram to a stack that has just started. -/
theorem ipEmit_delivered_boot : ∃ y sent,
    Lang.Reaches body ⟨⟨.boot fun _ => 1, []⟩, ipEmit (fun _ => 2) 7 0 ipProtoUdp [1, 2, 3]⟩
      ⟨y, tx sent⟩ ∧ Invokes (.boot fun _ => 2) (sent ++ [0]) .udp 7 [1, 2, 3] := by
  obtain ⟨y, sent, hsends, hpad⟩ :=
    @ipEmit_delivered ⟨.boot fun _ => 1, []⟩ _ 7 _ [1, 2, 3] .udp (by decide)
  exact ⟨y, sent, hsends, (hpad [0]).2 _ (.inl rfl) (.inl rfl)⟩

end JuampiOs.Net
