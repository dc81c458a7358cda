import JuampiOs.Net.Clients

/-!
# Dotted quads

`net_aton` takes exactly four fields of one to three digits with a value of at most 255, between
single dots (`netAton_iff`), and reads back what `net_ntoa` prints (`netAton_netNtoa`).
-/

namespace JuampiOs.Net

open Lib.Wire Str List UInt32

/-- The digits `net_ntoa` prints for one byte of an address. -/
def octetText (v : UInt8) : List UInt8 :=
  (if 100 ≤ v then [48 + v / 100] else []) ++ (if 10 ≤ v then [48 + v / 10 % 10] else []) ++
    [48 + v % 10]

/-- `net_ntoa`: the string in `buf`, with its terminator. -/
def netNtoa (ip : UInt32) : List UInt8 :=
  let byte (k : Nat) : UInt8 := UInt8.ofNat (ip.toNat / 256 ^ k)
  octetText (byte 3) ++ 46 :: (octetText (byte 2) ++ 46 :: (octetText (byte 1) ++ 46 ::
    (octetText (byte 0) ++ [0])))

/-- A field of a dotted quad. -/
structure Octet (f : List UInt8) : Prop where
  pos : f ≠ []
  le : f.length ≤ 3
  digit : f.all isDigit
  value : decimal f ≤ 255

/-- The address of four fields. -/
def quad (a b c d : List UInt8) : UInt32 :=
  UInt32.ofNat (16777216 * decimal a + 65536 * decimal b + 256 * decimal c + decimal d)

theorem decimalFrom_lt (v : Nat) (f : List UInt8) (h : f.all isDigit) :
    decimalFrom v f < (v + 1) * 10 ^ f.length := by
  induction f generalizing v with
  | nil => exact (Nat.mul_one _).symm ▸ Nat.lt_succ_self v
  | cons c f ih =>
    rw [all_cons, Bool.and_eq_true] at h
    have hc : c.toNat ≤ 57 :=
      UInt8.le_iff_toNat_le.mp (of_decide_eq_true (Bool.and_eq_true_iff.mp h.1).2)
    refine lt_of_lt_of_le (ih _ h.2) ?_
    rw [length_cons, pow_succ, mul_comm (10 ^ _), ← mul_assoc]
    exact Nat.mul_le_mul_right _ (show v * 10 + (c.toNat - 48) + 1 ≤ (v + 1) * 10 by omega)

/-! ## `net_aton` -/

section Fields

variable {n dots : Nat} {rest : List UInt8} {r : UInt32}

theorem shift_or (hn : n < 2 ^ 24) {v : Nat} (hv : v ≤ 255) :
    UInt32.ofNat n <<< 8 ||| UInt32.ofNat v = UInt32.ofNat (n * 256 + v) := by
  apply UInt32.toNat_inj.mp
  rw [UInt32.toNat_or, UInt32.toNat_shiftLeft]
  simp only [toNat_ofNat', toNat_ofNat]
  rw [Nat.mod_eq_of_lt (show n < 2 ^ 32 by omega), Nat.mod_eq_of_lt (show v < 2 ^ 32 by omega),
    Nat.mod_eq_of_lt (show n * 256 + v < 2 ^ 32 by omega), show 8 % 32 = 8 from rfl,
    Nat.shiftLeft_eq, Nat.mod_eq_of_lt (by omega), ← Nat.shiftLeft_eq,
    ← Nat.shiftLeft_add_eq_or_of_lt (by omega), Nat.shiftLeft_eq]

/-- What the loop does with a field. -/
theorem octet_cases (f : List UInt8) :
    (Octet f ∧ ¬ (f.length = 0 ∨ 3 < f.length) ∧ strToU32 f = some (UInt32.ofNat (decimal f)) ∧
      ¬ 255 < UInt32.ofNat (decimal f)) ∨
    ¬ Octet f ∧ ∀ k : UInt32 → Option UInt32,
      (if f.length = 0 ∨ 3 < f.length then none
        else match strToU32 f with
          | none => none
          | some v => if 255 < v then none else k v) = none := by
  have hnil : f.length = 0 ↔ f = [] := length_eq_zero_iff
  by_cases hlen : f.length = 0 ∨ 3 < f.length
  · refine .inr ⟨fun h => ?_, fun k => if_pos hlen⟩
    rcases hlen with hzero | hlong
    · exact h.pos (hnil.mp hzero)
    · exact absurd h.le (by omega)
  have hne : f ≠ [] := fun h => hlen (.inl (hnil.mpr h))
  rw [strToU32_eq]
  by_cases hdigit : f.all isDigit
  · rw [if_pos ⟨hne, hdigit⟩]
    have hbound : decimal f < 1000 := by
      refine lt_of_lt_of_le (decimalFrom_lt 0 f hdigit) ?_
      rw [Nat.one_mul]
      exact Nat.pow_le_pow_right (by decide) (show f.length ≤ 3 by omega)
    have hlt : 255 < ofNat (decimal f) ↔ 255 < decimal f := by
      rw [lt_iff_toNat_lt, toNat_ofNat', Nat.mod_eq_of_lt (by omega)]
      rfl
    by_cases hbig : 255 < decimal f
    · refine .inr ⟨fun h => absurd h.value (by omega), fun k => ?_⟩
      rw [if_neg hlen]
      exact if_pos (hlt.mpr hbig)
    · exact .inl ⟨⟨hne, by omega, hdigit, by omega⟩, hlen, rfl, fun h => hbig (hlt.mp h)⟩
  · refine .inr ⟨fun h => hdigit h.digit, fun k => ?_⟩
    rw [if_neg hlen, if_neg fun h => hdigit h.2]

theorem atonFrom_last (hn : n < 2 ^ 24) :
    atonFrom (UInt32.ofNat n) 0 rest = some r ↔
      Octet rest ∧ r = UInt32.ofNat (n * 256 + decimal rest) := by
  rw [atonFrom]
  rcases octet_cases rest with ⟨hoctet, hlen, hvalue, hle⟩ | ⟨hoctet, hnone⟩
  · simp only [if_true, ne_eq, not_true_eq_false, false_and, if_false, hlen, hvalue, hle]
    rw [shift_or hn hoctet.value]
    simp [hoctet, eq_comm]
  · refine iff_of_false (fun h => ?_) fun h => hoctet h.1
    have hrest := hnone fun v => some (ofNat n <<< 8 ||| v)
    simp only [if_true, ne_eq, not_true_eq_false, false_and, if_false] at h
    exact nomatch hrest.symm.trans h

theorem atonFrom_field (hn : n < 2 ^ 24) :
    atonFrom (UInt32.ofNat n) (dots + 1) rest = some r ↔ ∃ f rest', rest = f ++ 46 :: rest' ∧
      Octet f ∧ atonFrom (UInt32.ofNat (n * 256 + decimal f)) dots rest' = some r := by
  rw [atonFrom]
  simp only [Nat.succ_ne_zero, if_false, ne_eq, not_false_eq_true, true_and]
  by_cases hdot : 46 ∈ rest
  · obtain ⟨f, rest', rfl, hf⟩ := eq_append_cons_of_mem hdot
    have hcut := strCutCh_append hf rest'
    -- a field has no dot in it, so there is no other way to cut
    have hunique : ∀ g rest'', f ++ 46 :: rest' = g ++ 46 :: rest'' → Octet g →
        g = f ∧ rest'' = rest' := by
      intro g rest'' heq hg
      have hnodot : 46 ∉ g := fun hmem => absurd (all_eq_true.mp hg.digit 46 hmem) (by decide)
      have hcut' := strCutCh_append hnodot rest''
      rw [← heq, hcut] at hcut'
      cases hcut'
      exact ⟨rfl, rfl⟩
    simp only [hcut, Bool.true_eq_false, if_false]
    rcases octet_cases f with ⟨hoctet, hlen, hvalue, hle⟩ | ⟨hoctet, hnone⟩
    · simp only [hlen, hvalue, hle, if_false]
      rw [shift_or hn hoctet.value]
      constructor
      · exact fun h => ⟨f, rest', rfl, hoctet, h⟩
      · rintro ⟨g, rest'', heq, hg, h⟩
        obtain ⟨rfl, rfl⟩ := hunique g rest'' heq hg
        exact h
    · refine iff_of_false (fun h => nomatch (hnone _).symm.trans h) ?_
      rintro ⟨g, rest'', heq, hg, _⟩
      exact hoctet ((hunique g rest'' heq hg).1 ▸ hg)
  · have hcut : (strCutCh rest 46).1 = false := by simpa [strCutCh] using hdot
    rw [if_pos hcut]
    refine iff_of_false nofun ?_
    rintro ⟨f, rest', rfl, _⟩
    exact hdot (mem_append_right f mem_cons_self)

end Fields

theorem netAton_iff {s : List UInt8} {ip : UInt32} :
    netAton s = some ip ↔ ∃ a b c d, strFrom s = a ++ 46 :: (b ++ 46 :: (c ++ 46 :: d)) ∧
      (Octet a ∧ Octet b ∧ Octet c ∧ Octet d) ∧ ip = quad a b c d := by
  show atonFrom (ofNat 0) 3 (strFrom s) = some ip ↔ _
  rw [atonFrom_field (by decide)]
  constructor
  · rintro ⟨a, r, hs, ha, h⟩
    have hva := ha.value
    obtain ⟨b, r, rfl, hb, h⟩ := (atonFrom_field (by omega)).mp h
    have hvb := hb.value
    obtain ⟨c, d, rfl, hc, h⟩ := (atonFrom_field (by omega)).mp h
    have hvc := hc.value
    obtain ⟨hd, rfl⟩ := (atonFrom_last (by omega)).mp h
    refine ⟨a, b, c, d, hs, ⟨ha, hb, hc, hd⟩, ?_⟩
    unfold quad
    congr 1
    omega
  · rintro ⟨a, b, c, d, hs, ⟨ha, hb, hc, hd⟩, rfl⟩
    have hva := ha.value
    have hvb := hb.value
    have hvc := hc.value
    refine ⟨a, _, hs, ha, (atonFrom_field (by omega)).mpr ⟨b, _, rfl, hb, ?_⟩⟩
    refine (atonFrom_field (by omega)).mpr ⟨c, _, rfl, hc, (atonFrom_last (by omega)).mpr ⟨hd, ?_⟩⟩
    unfold quad
    congr 1
    omega

/-! ## `net_ntoa` -/

theorem octetText_spec (v : UInt8) : Octet (octetText v) ∧ decimal (octetText v) = v.toNat := by
  have hall : ∀ n : Fin 256, octetText (UInt8.ofNat n) ≠ [] ∧
      (octetText (UInt8.ofNat n)).length ≤ 3 ∧ (octetText (UInt8.ofNat n)).all isDigit ∧
      decimal (octetText (UInt8.ofNat n)) = n := by decide +kernel
  obtain ⟨hpos, hle, hdigit, hvalue⟩ := hall ⟨v.toNat, v.toNat_lt⟩
  rw [UInt8.ofNat_toNat] at hpos hle hdigit hvalue
  have hv := v.toNat_lt
  exact ⟨⟨hpos, hle, hdigit, hvalue.trans_le (by omega)⟩, hvalue⟩

theorem strFrom_octet {f rest : List UInt8} (hf : Octet f) : strFrom
    (f ++ rest) = f ++ strFrom rest := by
  refine takeWhile_append_of_pos fun c hc => decide_eq_true ?_
  rintro rfl
  exact absurd (all_eq_true.mp hf.digit 0 hc) (by decide)

/-- **Dotted quads**: what `net_aton` takes and the address it gives, and that it reads back what
`net_ntoa` prints. -/
theorem dotted_quads :
    (∀ s ip, netAton s = some ip ↔ ∃ a b c d, strFrom s = a ++ 46 :: (b ++ 46 :: (c ++ 46 :: d)) ∧
      (Octet a ∧ Octet b ∧ Octet c ∧ Octet d) ∧ ip = quad a b c d) ∧
    ∀ ip, netAton (netNtoa ip) = some ip := by
  refine ⟨fun s ip => netAton_iff, fun ip => ?_⟩
  have hoctet := fun k => octetText_spec (UInt8.ofNat (ip.toNat / 256 ^ k))
  refine netAton_iff.mpr ⟨_, _, _, _, ?_, ⟨(hoctet 3).1, (hoctet 2).1, (hoctet 1).1, (hoctet 0).1⟩, ?_⟩
  · have hdot : ∀ rest, strFrom (46 :: rest) = 46 :: strFrom rest := fun rest =>
      takeWhile_cons_of_pos (by decide)
    unfold netNtoa
    dsimp only
    rw [strFrom_octet (hoctet 3).1, hdot, strFrom_octet (hoctet 2).1, hdot,
      strFrom_octet (hoctet 1).1, hdot, strFrom_octet (hoctet 0).1]
    rw [show strFrom [0] = [] from rfl, append_nil]
  · have hip := ip.toNat_lt
    unfold quad
    rw [(hoctet 3).2, (hoctet 2).2, (hoctet 1).2, (hoctet 0).2]
    apply UInt32.toNat_inj.mp
    simp only [UInt8.toNat_ofNat', UInt32.toNat_ofNat']
    omega

end JuampiOs.Net
