import Mathlib.Data.List.Basic

/-!
# Sums in one's complement

The sum of RFC 1071 over a list of bytes: 16-bit words, most significant byte first, added with
the carry brought around (`onesSum`). `wordSum` is the plain sum of the same words read the other
way round. Modulo 65535 a swap of the bytes of a word is a product with 256, so the one sum is
0xFFFF exactly if the other is a multiple of 65535 and not zero (`onesSum_eq_max`).
-/

namespace JuampiOs.Lib

open List

/-- Addition of 16 bits with the carry brought around. -/
def onesAdd (a b : Nat) : Nat := if a + b < 65536 then a + b else a + b - 65535

/-- The sum of the words of a list of bytes; an odd last byte is padded with a zero. -/
def onesSum : List UInt8 → Nat
  | a :: b :: rest => onesAdd (256 * a.toNat + b.toNat) (onesSum rest)
  | [a] => 256 * a.toNat
  | [] => 0

/-- The sum of the words, least significant byte first. -/
def wordSum : List UInt8 → Nat
  | a :: b :: rest => a.toNat + 256 * b.toNat + wordSum rest
  | [a] => a.toNat
  | [] => 0

theorem onesAdd_spec {a b : Nat} (ha : a < 65536) (hb : b < 65536) :
    onesAdd a b < 65536 ∧ onesAdd a b % 65535 = (a + b) % 65535 ∧
      (onesAdd a b = 0 ↔ a = 0 ∧ b = 0) := by
  unfold onesAdd
  split <;> omega

theorem onesSum_spec (data : List UInt8) :
    onesSum data < 65536 ∧ onesSum data % 65535 = 256 * wordSum data % 65535 ∧
      (onesSum data = 0 ↔ wordSum data = 0) := by
  induction data using onesSum.induct with
  | case1 a b rest ih =>
    obtain ⟨hlt, hmod, hzero⟩ := ih
    have ha := a.toNat_lt
    have hb := b.toNat_lt
    rw [onesSum, wordSum]
    generalize onesSum rest = s at hlt hmod hzero ⊢
    have hadd := onesAdd_spec (show 256 * a.toNat + b.toNat < 65536 by omega) hlt
    omega
  | case2 a =>
    have ha := a.toNat_lt
    rw [onesSum, wordSum]
    omega
  | case3 => exact ⟨by decide, rfl, iff_of_true rfl rfl⟩

theorem onesSum_eq_max {data : List UInt8} (hmod : wordSum data % 65535 = 0)
    (hpos : wordSum data ≠ 0) : onesSum data = 65535 := by
  obtain ⟨hlt, hsum, hzero⟩ := onesSum_spec data
  have hne : onesSum data ≠ 0 := fun h => hpos (hzero.mp h)
  omega

theorem wordSum_append {a b : List UInt8} (heven : a.length % 2 = 0) :
    wordSum (a ++ b) = wordSum a + wordSum b := by
  induction a using wordSum.induct with
  | case1 x y rest ih =>
    rw [length_cons, length_cons] at heven
    rw [cons_append, cons_append, wordSum, wordSum, ih (by omega)]
    omega
  | case2 x => cases heven
  | case3 => rw [List.nil_append, wordSum, Nat.zero_add]

theorem wordSum_le (data : List UInt8) : 2 * wordSum data ≤ 65535 * (data.length + 1) := by
  induction data using wordSum.induct with
  | case1 a b rest ih =>
    have ha := a.toNat_lt
    have hb := b.toNat_lt
    rw [wordSum, length_cons, length_cons]
    omega
  | case2 a =>
    have ha := a.toNat_lt
    rw [wordSum, length_singleton]
    omega
  | case3 => exact Nat.zero_le _

end JuampiOs.Lib
