import JuampiOs.Lib.OnesComplement
import JuampiOs.Net.Format
import Mathlib.Algebra.Group.Nat.Defs

/-!
# The Internet checksum

`csum_add` adds the words of a buffer as the machine reads them and `csum_fold` brings the carries
around, so the field that is stored makes the sum of all words a multiple of 65535, whichever way
round the words are read (`checksums_sum`). A segment is given as what is before its checksum
field and what is behind it.
-/

namespace JuampiOs.Net

open Lib Lib.Wire List UInt32

theorem csumAdd_toNat {sum : UInt32} {data : List UInt8} (h : sum.toNat + wordSum data < 2 ^ 32) :
    (csumAdd sum data).toNat = sum.toNat + wordSum data := by
  induction data using wordSum.induct generalizing sum with
  | case1 a b rest ih =>
    rw [wordSum] at h ⊢
    have hadd : (sum + ofNat (a.toNat + 256 * b.toNat)).toNat =
        sum.toNat + (a.toNat + 256 * b.toNat) := by
      rw [UInt32.toNat_add, UInt32.toNat_ofNat']
      omega
    rw [csumAdd, ih (by omega), hadd]
    omega
  | case2 a =>
    rw [wordSum] at h ⊢
    rw [csumAdd, UInt32.toNat_add, UInt32.toNat_ofNat']
    omega
  | case3 => rfl

/-- A round of the fold keeps the sum modulo 65535, and whether it is zero. -/
theorem csumCarry_spec (fuel : Nat) (sum : UInt32) :
    (csumCarry fuel sum).toNat % 65535 = sum.toNat % 65535 ∧
      ((csumCarry fuel sum).toNat = 0 ↔ sum.toNat = 0) := by
  induction fuel generalizing sum with
  | zero => exact ⟨rfl, Iff.rfl⟩
  | succ fuel ih =>
    rw [csumCarry]
    split
    · have hround := carry_toNat sum
      obtain ⟨hmod, hzero⟩ := ih ((sum &&& (0xFFFF : UInt32)) + (sum >>> 16))
      rw [hround] at hmod hzero
      omega
    · exact ⟨rfl, Iff.rfl⟩

theorem csumFold_spec (sum : UInt32) :
    (sum.toNat + (csumFold sum).toNat) % 65535 = 0 ∧ sum.toNat + (csumFold sum).toNat ≠ 0 := by
  obtain ⟨hmod, hzero⟩ := csumCarry_spec 2 sum
  have hdone : (csumCarry 2 sum).toNat < 65536 := by
    have h := congrArg toNat (csumCarry_done sum)
    rw [UInt32.toNat_shiftRight] at h
    have hdiv := (Nat.shiftRight_eq_div_pow (csumCarry 2 sum).toNat 16).symm.trans h
    exact (Nat.div_eq_zero_iff_lt (by decide)).mp hdiv
  have hnot : (csumFold sum).toNat = 65535 - (csumCarry 2 sum).toNat := by
    rw [csumFold, UInt16.toNat_not, toNat_toUInt16]
    have hsize : UInt16.size = 65536 := rfl
    omega
  omega

theorem wordSum_raw16 (c : UInt16) : wordSum (raw16 c) = c.toNat := by
  have hc := c.toNat_lt
  rw [raw16, wordSum, wordSum, UInt16.toNat_toUInt8, UInt8.toNat_ofNat']
  omega

section Field

variable {before after : List UInt8} {c : UInt16}

theorem wordSum_field (heven : before.length % 2 = 0) :
    wordSum (before ++ raw16 c ++ after) = wordSum (before ++ raw16 0 ++ after) + c.toNat := by
  have hlen : ∀ c, (before ++ raw16 c).length % 2 = 0 := by
    intro c
    rw [length_append, show (raw16 c).length = 2 from rfl]
    omega
  rw [wordSum_append (hlen c), wordSum_append (hlen 0), wordSum_append heven,
    wordSum_append heven, wordSum_raw16, wordSum_raw16]
  show _ = wordSum before + 0 + wordSum after + c.toNat
  omega

/-- The field holds the fold of a sum that is exact, or 0xFFFF in the place of 0. -/
theorem onesSum_field {sum : UInt32} (heven : before.length % 2 = 0)
    (hsum : sum.toNat = wordSum (before ++ raw16 0 ++ after))
    (hc : c = csumFold sum ∨ csumFold sum = 0 ∧ c = 0xFFFF) :
    onesSum (before ++ raw16 c ++ after) = 0xFFFF := by
  obtain ⟨hmod, hpos⟩ := csumFold_spec sum
  have hfield := @wordSum_field before after c heven
  rcases hc with rfl | ⟨hzero, rfl⟩
  · apply onesSum_eq_max <;> omega
  · rw [hzero] at hmod hpos
    rw [show (0xFFFF : UInt16).toNat = 65535 from rfl] at hfield
    rw [show (0 : UInt16).toNat = 0 from rfl] at hmod
    apply onesSum_eq_max <;> omega

end Field

/-! ## Segments -/

variable (srcIp dstIp : UInt32) (proto : UInt8)

/-- What `udp_checksum` and `tcp_checksum` add up, over any part of a segment. -/
theorem accumulator_exact {seg : List UInt8} (hlen : seg.length ≤ 65535) (k : Nat) :
    (csumAdd (csumAdd 0 (pseudoHdr srcIp dstIp proto seg.length)) (seg.take k)).toNat =
      wordSum (pseudoHdr srcIp dstIp proto seg.length ++ seg.take k) := by
  have hhdr : (pseudoHdr srcIp dstIp proto seg.length).length = 12 := rfl
  have hlehdr := wordSum_le (pseudoHdr srcIp dstIp proto seg.length)
  have hleseg := wordSum_le (seg.take k)
  rw [length_take] at hleseg
  have hzero : (0 : UInt32).toNat = 0 := rfl
  rw [csumAdd_toNat (by rw [csumAdd_toNat (by omega)]; omega), csumAdd_toNat (by omega),
    wordSum_append (by omega)]
  omega

theorem onesSum_segment {before after : List UInt8} {c : UInt16} (heven : before.length % 2 = 0)
    (hlen : (before ++ raw16 0 ++ after).length ≤ 65535)
    (hc : ∀ sum, sum = csumFold (csumAdd (csumAdd 0 (pseudoHdr srcIp dstIp proto
        (before ++ raw16 0 ++ after).length)) (before ++ raw16 0 ++ after)) →
      c = sum ∨ sum = 0 ∧ c = 0xFFFF) :
    onesSum (pseudoHdr srcIp dstIp proto (before ++ raw16 0 ++ after).length ++
      (before ++ raw16 c ++ after)) = 0xFFFF := by
  have hexact := accumulator_exact srcIp dstIp proto hlen (before ++ raw16 0 ++ after).length
  rw [take_length] at hexact
  rw [← append_assoc, ← append_assoc] at hexact ⊢
  refine onesSum_field ?_ hexact (hc _ rfl)
  rw [length_append, show (pseudoHdr srcIp dstIp proto _).length = 12 from rfl]
  omega

/-- **The checksums.** With the value of `inet_csum`, `tcp_checksum` or `udp_checksum` in the
field that was zero, the sum over the header, or over the pseudo-header and the segment, is
0xFFFF; and the accumulator is the plain sum of the words at every point. -/
theorem checksums_sum :
    (∀ before after, before.length = 10 → (before ++ raw16 0 ++ after).length ≤ 65535 →
      onesSum (before ++ raw16 (inetCsum (before ++ raw16 0 ++ after)) ++ after) = 0xFFFF) ∧
    (∀ srcIp dstIp before after, before.length = 16 →
      (before ++ raw16 0 ++ after).length ≤ 65535 →
      onesSum (pseudoHdr srcIp dstIp ipProtoTcp (before ++ raw16 0 ++ after).length ++
        (before ++ raw16 (tcpChecksum srcIp dstIp (before ++ raw16 0 ++ after)) ++ after)) =
          0xFFFF) ∧
    (∀ srcIp dstIp before after, before.length = 6 →
      (before ++ raw16 0 ++ after).length ≤ 65535 →
      onesSum (pseudoHdr srcIp dstIp ipProtoUdp (before ++ raw16 0 ++ after).length ++
        (before ++ raw16 (udpChecksum srcIp dstIp (before ++ raw16 0 ++ after)) ++ after)) =
          0xFFFF) ∧
    ∀ srcIp dstIp proto (seg : List UInt8), seg.length ≤ 65535 → ∀ k,
      (csumAdd 0 (seg.take k)).toNat = wordSum (seg.take k) ∧
      (csumAdd (csumAdd 0 (pseudoHdr srcIp dstIp proto seg.length)) (seg.take k)).toNat =
        wordSum (pseudoHdr srcIp dstIp proto seg.length ++ seg.take k) := by
  have hplain : ∀ seg : List UInt8, seg.length ≤ 65535 → ∀ k,
      (csumAdd 0 (seg.take k)).toNat = wordSum (seg.take k) := by
    intro seg hlen k
    have hle := wordSum_le (seg.take k)
    rw [length_take] at hle
    rw [csumAdd_toNat (by show 0 + _ < _; omega)]
    exact zero_add _
  refine ⟨?_, ?_, ?_, ?_⟩
  · intro before after hlen hle
    have hexact := hplain _ hle (before ++ raw16 0 ++ after).length
    rw [take_length] at hexact
    exact onesSum_field (by omega) hexact (.inl rfl)
  · intro srcIp dstIp before after hlen hle
    refine onesSum_segment srcIp dstIp ipProtoTcp (by omega) hle ?_
    rintro sum rfl
    exact .inl rfl
  · intro srcIp dstIp before after hlen hle
    refine onesSum_segment srcIp dstIp ipProtoUdp (by omega) hle ?_
    rintro sum rfl
    unfold udpChecksum
    dsimp only
    split
    · exact .inl rfl
    · rename_i hzero
      exact .inr ⟨not_not.mp hzero, rfl⟩
  · exact fun srcIp dstIp proto seg hlen k => ⟨hplain seg hlen k, accumulator_exact _ _ _ hlen k⟩

/-- A UDP datagram with one byte. -/
theorem checksums_sum_udp :
    onesSum (pseudoHdr 0x0A00020F 0x0A000202 ipProtoUdp 9 ++ ([0, 53, 19, 136, 0, 9] ++ raw16
      (udpChecksum 0x0A00020F 0x0A000202 ([0, 53, 19, 136, 0, 9] ++ raw16 0 ++ [7])) ++ [7])) =
        0xFFFF :=
  checksums_sum.2.2.1 0x0A00020F 0x0A000202 [0, 53, 19, 136, 0, 9] [7] rfl (by decide)

end JuampiOs.Net
