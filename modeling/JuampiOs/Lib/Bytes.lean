import Mathlib.Data.List.Basic
import Mathlib.Tactic.Linarith
import Mathlib.Data.Nat.Bitwise

/-!
# Byte buffers

A memory buffer as a function from offsets to bytes, with the accesses C code makes to it:
`memcpy` of a range (`Buf.blit`), little-endian fields of 16 and 32 bits at a byte offset,
arrays of 32-bit words, and single bits of a bitmap. Each store comes with what every read
sees after it: the stored value inside the stored range, the old contents outside.
-/

namespace JuampiOs

open Function

/-- The contents of a memory buffer, by byte offset. -/
abbrev Buf := Nat → UInt8

namespace Buf

/-- An all-zero buffer. -/
def zero : Buf := fun _ => 0

/-- The first `n` bytes of a buffer: what `memcpy` leaves in an `n`-byte destination. -/
def take (n : Nat) (b : Buf) : Buf := fun i => if i < n then b i else 0

@[simp] theorem take_take (n : Nat) (b : Buf) : take n (take n b) = take n b := by
  funext i
  by_cases h : i < n <;> simp [take, h]

variable {n i off j : Nat} {b dst src : Buf}

theorem take_of_lt (b : Buf) (h : i < n) : take n b i = b i := by
  simp [take, h]

theorem take_of_ge (b : Buf) (h : n ≤ i) : take n b i = 0 := by
  simp [take, not_lt.mpr h]

theorem take_congr {a : Buf} (h : ∀ i, i < n → a i = b i) : take n a = take n b := by
  funext i
  by_cases hi : i < n
  · simp [take, hi, h i hi]
  · simp [take, hi]

@[simp] theorem take_zero (n : Nat) : take n zero = zero := by
  funext i
  simp [take, zero]

/-- The first `n` bytes of a buffer, as a list. -/
def bytes (b : Buf) (n : Nat) : List UInt8 := (List.range n).map b

/-- `memcpy(dst + off, src, n)`. -/
def blit (dst : Buf) (off n : Nat) (src : Buf) : Buf :=
  fun i => if off ≤ i ∧ i < off + n then src (i - off) else dst i

theorem blit_of_mem (h : off ≤ i ∧ i < off + n) : blit dst off n src i = src (i - off) := if_pos h

theorem blit_of_notMem (h : ¬ (off ≤ i ∧ i < off + n)) : blit dst off n src i = dst i := if_neg h

/-- A store inside the first `m` bytes commutes with cutting the buffer to `m` bytes. -/
theorem take_blit {m : Nat} (dst src : Buf) (h : off + n ≤ m) :
    take m (blit dst off n src) = blit (take m dst) off n src := by
  funext i
  by_cases hin : off ≤ i ∧ i < off + n
  · rw [blit_of_mem hin, take_of_lt _ (by omega), blit_of_mem hin]
  · rw [blit_of_notMem hin]
    by_cases hi : i < m
    · rw [take_of_lt _ hi, take_of_lt _ hi, blit_of_notMem hin]
    · rw [take_of_ge _ (by omega), take_of_ge _ (by omega)]

/-! ## Little-endian fields -/

/-- The 16-bit field at byte offset `off`. -/
def get16 (b : Buf) (off : Nat) : UInt16 :=
  UInt16.ofNat ((b off).toNat + 256 * (b (off + 1)).toNat)

/-- The 32-bit field at byte offset `off`. -/
def get32 (b : Buf) (off : Nat) : UInt32 :=
  UInt32.ofNat ((b off).toNat + 256 * (b (off + 1)).toNat + 65536 * (b (off + 2)).toNat +
    16777216 * (b (off + 3)).toNat)

/-- The little-endian bytes of a 16-bit value. -/
def le16 (v : UInt16) : Buf := fun i => UInt8.ofNat (v.toNat / 256 ^ i)

/-- The little-endian bytes of a 32-bit value. -/
def le32 (v : UInt32) : Buf := fun i => UInt8.ofNat (v.toNat / 256 ^ i)

def put8 (b : Buf) (off : Nat) (v : UInt8) : Buf := blit b off 1 fun _ => v

def put16 (b : Buf) (off : Nat) (v : UInt16) : Buf := blit b off 2 (le16 v)

def put32 (b : Buf) (off : Nat) (v : UInt32) : Buf := blit b off 4 (le32 v)

theorem get16_le16 (v : UInt16) : get16 (le16 v) 0 = v := by
  apply UInt16.toNat_inj.mp
  have hv := v.toNat_lt
  simp only [get16, le16, UInt16.toNat_ofNat', UInt8.toNat_ofNat']
  omega

theorem le32_get32 (b : Buf) (off : Nat) : ∀ k, k < 4 → le32 (get32 b off) k = b (off + k) := by
  have h0 := (b off).toNat_lt
  have h1 := (b (off + 1)).toNat_lt
  have h2 := (b (off + 2)).toNat_lt
  have h3 := (b (off + 3)).toNat_lt
  intro k hk
  apply UInt8.toNat_inj.mp
  simp only [get32, le32, UInt32.toNat_ofNat', UInt8.toNat_ofNat']
  match k, hk with
  | 0, _ => simp only [add_zero]; omega
  | 1, _ => omega
  | 2, _ => omega
  | 3, _ => omega

theorem get32_le32 (v : UInt32) : get32 (le32 v) 0 = v := by
  apply UInt32.toNat_inj.mp
  have hv := v.toNat_lt
  simp only [get32, le32, UInt32.toNat_ofNat', UInt8.toNat_ofNat']
  omega

theorem get16_congr {a : Buf} (h : ∀ k, k < 2 → a (i + k) = b (j + k)) : get16 a i = get16 b j := by
  have h0 := h 0 (by omega)
  have h1 := h 1 (by omega)
  simp only [add_zero] at h0
  simp only [get16, h0, h1]

theorem get32_congr {a : Buf} (h : ∀ k, k < 4 → a (i + k) = b (j + k)) : get32 a i = get32 b j := by
  have h0 := h 0 (by omega)
  have h1 := h 1 (by omega)
  have h2 := h 2 (by omega)
  have h3 := h 3 (by omega)
  simp only [add_zero] at h0
  simp only [get32, h0, h1, h2, h3]

theorem get16_blit_in {k : Nat} (hi : i = off + k) (h : k + 2 ≤ n) :
    get16 (blit dst off n src) i = get16 src k := by
  subst hi
  refine get16_congr fun j hj => ?_
  rw [blit_of_mem (by omega)]
  congr 1
  omega

theorem get32_blit_in {k : Nat} (hi : i = off + k) (h : k + 4 ≤ n) :
    get32 (blit dst off n src) i = get32 src k := by
  subst hi
  refine get32_congr fun j hj => ?_
  rw [blit_of_mem (by omega)]
  congr 1
  omega

theorem get16_blit_out (h : i + 2 ≤ off ∨ off + n ≤ i) :
    get16 (blit dst off n src) i = get16 dst i := by
  refine get16_congr fun j hj => ?_
  rw [blit_of_notMem (by omega)]

theorem get32_blit_out (h : i + 4 ≤ off ∨ off + n ≤ i) :
    get32 (blit dst off n src) i = get32 dst i := by
  refine get32_congr fun j hj => ?_
  rw [blit_of_notMem (by omega)]

@[simp] theorem get16_put16 (b : Buf) (off : Nat) (v : UInt16) : get16 (put16 b off v) off = v := by
  rw [put16, get16_blit_in (add_zero off).symm (by omega), get16_le16]

@[simp] theorem get32_put32 (b : Buf) (off : Nat) (v : UInt32) : get32 (put32 b off v) off = v := by
  rw [put32, get32_blit_in (add_zero off).symm (by omega), get32_le32]

theorem get16_put16_of_ne {v : UInt16} (h : i + 2 ≤ off ∨ off + 2 ≤ i) :
    get16 (put16 b off v) i = get16 b i := get16_blit_out h

theorem get16_put32_of_ne {v : UInt32} (h : i + 2 ≤ off ∨ off + 4 ≤ i) :
    get16 (put32 b off v) i = get16 b i := get16_blit_out h

theorem get32_put16_of_ne {v : UInt16} (h : i + 4 ≤ off ∨ off + 2 ≤ i) :
    get32 (put16 b off v) i = get32 b i := get32_blit_out h

theorem get32_put32_of_ne {v : UInt32} (h : i + 4 ≤ off ∨ off + 4 ≤ i) :
    get32 (put32 b off v) i = get32 b i := get32_blit_out h

theorem get32_take (h : i + 4 ≤ n) : get32 (take n b) i = get32 b i :=
  get32_congr fun _ _ => take_of_lt b (by omega)

/-! ## Arrays of words -/

/-- Word `n` of a buffer read as an array of `uint32_t`. -/
def word (b : Buf) (n : Nat) : UInt32 := get32 b (4 * n)

/-- The bytes of an array of words. -/
def words (f : Nat → UInt32) : Buf := fun i => le32 (f (i / 4)) (i % 4)

def putWord (b : Buf) (n : Nat) (v : UInt32) : Buf := put32 b (4 * n) v

theorem get32_words (f : Nat → UInt32) (n : Nat) : get32 (words f) (4 * n) = f n := by
  rw [← get32_le32 (f n)]
  refine get32_congr fun k hk => ?_
  simp only [words]
  rw [show (4 * n + k) / 4 = n by omega, show (4 * n + k) % 4 = k by omega, zero_add]

theorem word_putWord (b : Buf) (n m : Nat) (v : UInt32) :
    word (putWord b n v) m = if m = n then v else word b m := by
  unfold word putWord
  split
  · rename_i h
    subst h
    exact get32_put32 b _ v
  · exact get32_put32_of_ne (by omega)

theorem word_take (h : 4 * i + 4 ≤ n) : word (take n b) i = word b i :=
  get32_take h

/-! ## Bits -/

/-- Bit `i` of a bitmap: bit `i % 8` of byte `i / 8`. -/
def bit (b : Buf) (i : Nat) : Bool := (b (i / 8)).toNat.testBit (i % 8)

/-- Set bit `i`. -/
def setBit (b : Buf) (i : Nat) : Buf :=
  update b (i / 8) (b (i / 8) ||| UInt8.ofNat (2 ^ (i % 8)))

/-- Clear bit `i`. -/
def clearBit (b : Buf) (i : Nat) : Buf :=
  update b (i / 8) (b (i / 8) &&& ~~~ UInt8.ofNat (2 ^ (i % 8)))

theorem testBit_or_pow (x : UInt8) (hi : i < 8) :
    (x ||| UInt8.ofNat (2 ^ i)).toNat.testBit j = (x.toNat.testBit j || decide (i = j)) := by
  have hpow : 2 ^ i % 2 ^ 8 = 2 ^ i := Nat.mod_eq_of_lt (Nat.pow_lt_pow_right (by decide) hi)
  rw [UInt8.toNat_or, UInt8.toNat_ofNat', hpow, Nat.testBit_or, Nat.testBit_two_pow]

theorem testBit_and_not_pow (x : UInt8) (hi : i < 8) (hj : j < 8) :
    (x &&& ~~~ UInt8.ofNat (2 ^ i)).toNat.testBit j = (x.toNat.testBit j && !decide (i = j)) := by
  have hpow : 2 ^ i % 2 ^ 8 = 2 ^ i := Nat.mod_eq_of_lt (Nat.pow_lt_pow_right (by decide) hi)
  have hlt : 2 ^ i < 2 ^ 8 := Nat.pow_lt_pow_right (by decide) hi
  rw [UInt8.toNat_and, Nat.testBit_and, UInt8.toNat_not, UInt8.toNat_ofNat', hpow]
  have hnot : (2 ^ 8 - 1 - 2 ^ i).testBit j = !decide (i = j) := by
    rw [show 2 ^ 8 - 1 - 2 ^ i = 2 ^ 8 - (2 ^ i + 1) by omega,
      Nat.testBit_two_pow_sub_succ hlt, Nat.testBit_two_pow]
    simp [hj]
  have hsize : UInt8.size - 1 - 2 ^ i = 2 ^ 8 - 1 - 2 ^ i := rfl
  rw [hsize, hnot]

theorem bit_setBit (b : Buf) (i j : Nat) : bit (setBit b i) j = (bit b j || decide (j = i)) := by
  unfold bit setBit
  by_cases hbyte : j / 8 = i / 8
  · rw [hbyte, update_self, testBit_or_pow _ (Nat.mod_lt i (by decide))]
    congr 1
    rw [decide_eq_decide]
    omega
  · rw [update_of_ne hbyte]
    have hne : j ≠ i := fun h => hbyte (by rw [h])
    simp [hne]

theorem bit_clearBit (b : Buf) (i j : Nat) :
    bit (clearBit b i) j = (bit b j && !decide (j = i)) := by
  unfold bit clearBit
  by_cases hbyte : j / 8 = i / 8
  · rw [hbyte, update_self,
      testBit_and_not_pow _ (Nat.mod_lt i (by decide)) (Nat.mod_lt j (by decide))]
    congr 2
    rw [decide_eq_decide]
    omega
  · rw [update_of_ne hbyte]
    have hne : j ≠ i := fun h => hbyte (by rw [h])
    simp [hne]

theorem bit_take (h : i < 8 * n) : bit (take n b) i = bit b i := by
  unfold bit
  rw [take_of_lt _ (by omega)]

/-- A bitmap of `n` bits, of things numbered by `no`, after bit `i` was set or cleared. -/
theorem bit_update {size : Nat} {no : Nat → Nat} {used : Nat → Bool}
    (hn : n ≤ 8 * size) (hinj : ∀ j, j < n → no j = no i → j = i)
    (hb : ∀ j, j < n → bit b j = used (no j)) (hj : j < n) :
    bit (take size (setBit b i)) j = update used (no i) true (no j) ∧
      bit (take size (clearBit b i)) j = update used (no i) false (no j) := by
  rw [bit_take (by omega), bit_take (by omega), bit_setBit, bit_clearBit, hb j hj]
  by_cases hji : j = i
  · subst hji
    simp
  · have hne : no j ≠ no i := fun heq => hji (hinj j hj heq)
    simp [hne, hji]

end Buf

end JuampiOs
