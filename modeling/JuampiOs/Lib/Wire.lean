import Mathlib.Data.List.Basic

/-!
# Fields of packets

A packet is a list of bytes. Fields of 16 and 32 bits are written most significant byte first
(`be16`, `be32`) and read at a byte offset (`rd16`, `rd32`), reads beyond the end giving zero
bytes; `raw16` and `rdRaw16` are a field in the byte order of the machine, least significant
byte first. Reading what was written gives it back (`rd16_digits` and its companions, stated on
the bytes so that they apply wherever in a packet the field stands).
-/

namespace JuampiOs.Lib.Wire

def byte (p : List UInt8) (off : Nat) : UInt8 := p.getD off 0

/-! ## Writing -/

def be16 (v : UInt16) : List UInt8 := [UInt8.ofNat (v.toNat / 256), v.toUInt8]

def be32 (v : UInt32) : List UInt8 :=
  [UInt8.ofNat (v.toNat / 16777216), UInt8.ofNat (v.toNat / 65536), UInt8.ofNat (v.toNat / 256),
    v.toUInt8]

def raw16 (v : UInt16) : List UInt8 := [v.toUInt8, UInt8.ofNat (v.toNat / 256)]

/-! ## Reading -/

def of16 (hi lo : UInt8) : UInt16 := UInt16.ofNat (256 * hi.toNat + lo.toNat)

def of32 (a b c d : UInt8) : UInt32 :=
  UInt32.ofNat (16777216 * a.toNat + 65536 * b.toNat + 256 * c.toNat + d.toNat)

def rd16 (p : List UInt8) (off : Nat) : UInt16 := of16 (byte p off) (byte p (off + 1))

def rd32 (p : List UInt8) (off : Nat) : UInt32 :=
  of32 (byte p off) (byte p (off + 1)) (byte p (off + 2)) (byte p (off + 3))

def rdRaw16 (p : List UInt8) (off : Nat) : UInt16 := of16 (byte p (off + 1)) (byte p off)

/-! ## Reading back -/

@[simp] theorem byte_cons_zero (b : UInt8) (p : List UInt8) : byte (b :: p) 0 = b := rfl

@[simp] theorem byte_cons_succ (b : UInt8) (p : List UInt8) (n : Nat) :
    byte (b :: p) (n + 1) = byte p n := rfl

@[simp] theorem rd16_digits (v : UInt16) : of16 (UInt8.ofNat (v.toNat / 256)) v.toUInt8 = v := by
  apply UInt16.toNat_inj.mp
  have hv := v.toNat_lt
  simp only [of16, UInt16.toNat_ofNat', UInt8.toNat_ofNat', UInt16.toNat_toUInt8]
  omega

@[simp] theorem rd32_digits (v : UInt32) :
    of32 (UInt8.ofNat (v.toNat / 16777216)) (UInt8.ofNat (v.toNat / 65536))
      (UInt8.ofNat (v.toNat / 256)) v.toUInt8 = v := by
  apply UInt32.toNat_inj.mp
  have hv := v.toNat_lt
  simp only [of32, UInt32.toNat_ofNat', UInt8.toNat_ofNat', UInt32.toNat_toUInt8]
  omega

end JuampiOs.Lib.Wire
