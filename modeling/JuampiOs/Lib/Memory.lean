import JuampiOs.Lib.Bytes
import JuampiOs.Lib.Links
import Mathlib.Tactic.Ring

/-!
# Words in memory and the lists threaded through them

A byte-addressed memory read and written in little-endian words of any width, and the
singly linked lists a program threads through such a memory:

* `Buf.load`/`Buf.store`: a word of `w` bytes at an address. A load sees the last store to
  its own word (`load_store_self`) and none to a word apart from it (`load_store_apart`).
* `Buf.fill`: `memset(p, 0, n)`.
* `Threaded m p l`: following 8-byte links from the pointer `p` visits the addresses `l`
  and ends in a null pointer. A push is one store (`Threaded.push`), a pop one load
  (`threaded_cons`), an unlink one store to the predecessor (`Threaded.unlink`), and
  everything else leaves the list alone (`Threaded.frame`).
-/

namespace JuampiOs.Buf

/-- The little-endian word of `w` bytes at address `a`. -/
def load (m : Buf) (a : Nat) : Nat → Nat
  | 0 => 0
  | w + 1 => (m a).toNat + 256 * load m (a + 1) w

/-- The little-endian bytes of a number. -/
def digits (v : Nat) : Buf := fun i => UInt8.ofNat (v / 256 ^ i)

/-- Store the low `w` bytes of `v` at address `a`. -/
def store (m : Buf) (a w v : Nat) : Buf := blit m a w (digits v)

/-- `memset(a, 0, n)`. -/
def fill (m : Buf) (a n : Nat) : Buf := blit m a n zero

variable {m : Buf} {a w i : Nat}

theorem load_congr {m' : Buf} {b : Nat} (h : ∀ i, i < w → m (a + i) = m' (b + i)) :
    load m a w = load m' b w := by
  induction w generalizing a b with
  | zero => rfl
  | succ w ih =>
    have h0 : m a = m' b := h 0 (by omega)
    have htail : load m (a + 1) w = load m' (b + 1) w := by
      apply ih
      intro i hi
      have hi' := h (i + 1) (by omega)
      rwa [show a + (i + 1) = a + 1 + i by omega, show b + (i + 1) = b + 1 + i by omega] at hi'
    show (m a).toNat + 256 * load m (a + 1) w = (m' b).toNat + 256 * load m' (b + 1) w
    rw [h0, htail]

theorem load_lt (m : Buf) (a w : Nat) : load m a w < 256 ^ w := by
  induction w generalizing a with
  | zero => exact one_pos
  | succ w ih =>
    have hbyte := (m a).toNat_lt
    have htail := ih (a + 1)
    show (m a).toNat + 256 * load m (a + 1) w < 256 ^ (w + 1)
    rw [pow_succ]
    omega

theorem load_digits (v w : Nat) : load (digits v) 0 w = v % 256 ^ w := by
  induction w generalizing v with
  | zero => simp [load, Nat.mod_one]
  | succ w ih =>
    -- the bytes above the lowest are those of `v / 256`
    have htail : load (digits v) 1 w = load (digits (v / 256)) 0 w := by
      apply load_congr
      intro i _
      show UInt8.ofNat (v / 256 ^ (1 + i)) = UInt8.ofNat (v / 256 / 256 ^ (0 + i))
      rw [Nat.div_div_eq_div_mul, zero_add, pow_add, pow_one]
    have hlow : (digits v 0).toNat = v % 256 := by simp [digits]
    show (digits v 0).toNat + 256 * load (digits v) 1 w = v % 256 ^ (w + 1)
    rw [htail, ih, hlow, pow_succ, mul_comm, mul_comm (256 ^ w), Nat.mod_mul]
    ring

theorem load_store_self (m : Buf) (a w v : Nat) : load (store m a w v) a w = v % 256 ^ w := by
  rw [← load_digits v w]
  apply load_congr
  intro i hi
  rw [store, blit_of_mem (by omega), Nat.zero_add, Nat.add_sub_cancel_left]

theorem digits_load (m : Buf) (hi : i < w) : digits (load m a w) i = m (a + i) := by
  induction w generalizing a i with
  | zero => omega
  | succ w ih =>
    have hbyte := (m a).toNat_lt
    show UInt8.ofNat (((m a).toNat + 256 * load m (a + 1) w) / 256 ^ i) = m (a + i)
    cases i with
    | zero =>
      apply UInt8.toNat_inj.mp
      rw [UInt8.toNat_ofNat', Nat.pow_zero, Nat.div_one, show a + 0 = a from rfl]
      omega
    | succ i =>
      have htail : digits (load m (a + 1) w) i = m (a + 1 + i) := ih (by omega)
      rw [pow_succ', ← Nat.div_div_eq_div_mul,
        show ((m a).toNat + 256 * load m (a + 1) w) / 256 = load m (a + 1) w by omega,
        show a + (i + 1) = a + 1 + i by omega]
      exact htail

theorem store_load_self (m : Buf) (a w : Nat) : store m a w (load m a w) = m := by
  funext i
  by_cases hi : a ≤ i ∧ i < a + w
  · rw [store, blit_of_mem hi, digits_load m (by omega), Nat.add_sub_of_le hi.1]
  · rw [store, blit_of_notMem hi]

theorem store_of_notMem {v : Nat} (h : i < a ∨ a + w ≤ i) :
    store m a w v i = m i := blit_of_notMem (by omega)

theorem fill_of_notMem {n : Nat} (h : i < a ∨ a + n ≤ i) :
    fill m a n i = m i := blit_of_notMem (by omega)

theorem fill_of_mem {n : Nat} (h : a ≤ i ∧ i < a + n) : fill m a n i = 0 :=
  blit_of_mem h

theorem load_store_apart {b x v : Nat} (h : a + w ≤ b ∨ b + x ≤ a) :
    load (store m b x v) a w = load m a w := by
  apply load_congr
  intro i hi
  exact store_of_notMem (by omega)

end JuampiOs.Buf

namespace JuampiOs.Lib

open Function

/-- A machine pointer: the null pointer leads nowhere. -/
def ptr (v : Nat) : Option Nat := if v = 0 then none else some v

/-- The node an 8-byte link at `a` leads to. -/
def link (m : Buf) (a : Nat) : Option Nat := ptr (m.load a 8)

/-- Following the links of `m` from the pointer `p` visits the addresses of `l` and ends in
a null pointer. -/
def Threaded (m : Buf) (p : Nat) (l : List Nat) : Prop := Seg (link m) (ptr p) l none

/-- The words of two nodes do not meet. -/
def Apart (a b : Nat) : Prop := a + 8 ≤ b ∨ b + 8 ≤ a

variable {m m' : Buf} {p a b : Nat} {l l₁ l₂ : List Nat}

@[simp] theorem ptr_eq_none {v : Nat} : ptr v = none ↔ v = 0 := by
  unfold ptr
  split <;> simp_all

@[simp] theorem ptr_eq_some {v : Nat} : ptr v = some a ↔ v = a ∧ a ≠ 0 := by
  unfold ptr
  split
  · simp_all
  simp only [Option.some.injEq]
  constructor
  · rintro rfl
    exact ⟨rfl, by assumption⟩
  · exact And.left

@[simp] theorem threaded_nil : Threaded m p [] ↔ p = 0 := by
  simp [Threaded]

theorem threaded_cons : Threaded m p (a :: l) ↔ (p = a ∧ a ≠ 0) ∧ Threaded m (m.load a 8) l := by
  unfold Threaded
  rw [seg_cons, ptr_eq_some]
  rfl

theorem Threaded.frame (h : Threaded m p l) (hag : ∀ a ∈ l, m'.load a 8 = m.load a 8) :
    Threaded m' p l := by
  apply Seg.congr h
  intro a ha
  show ptr (m'.load a 8) = ptr (m.load a 8)
  rw [hag a ha]

theorem Threaded.head (h : Threaded m p l) : p = 0 ∧ l = [] ∨ p ∈ l := by
  cases l with
  | nil => exact .inl ⟨threaded_nil.mp h, rfl⟩
  | cons a l =>
    obtain ⟨⟨rfl, _⟩, _⟩ := threaded_cons.mp h
    exact .inr List.mem_cons_self

theorem load_store_link {v : Nat} (hv : v < 256 ^ 8) : (m.store a 8 v).load a 8 = v := by
  rw [Buf.load_store_self, Nat.mod_eq_of_lt hv]

theorem Threaded.push (h : Threaded m p l) (ha : a ≠ 0) (hp : p < 256 ^ 8)
    (hapart : ∀ b ∈ l, Apart b a) : Threaded (m.store a 8 p) a (a :: l) := by
  rw [threaded_cons, load_store_link hp]
  refine ⟨⟨rfl, ha⟩, h.frame ?_⟩
  intro b hb
  exact Buf.load_store_apart (hapart b hb)

theorem Threaded.unlink (h : Threaded m p (l₁ ++ b :: a :: l₂)) (hnd : (l₁ ++ b :: a :: l₂).Nodup)
    (hapart : ∀ x ∈ l₁ ++ b :: l₂, x ≠ b → Apart x b) :
    Threaded (m.store b 8 (m.load a 8)) p (l₁ ++ b :: l₂) := by
  have hseg : Seg (update (link m) b (link m a)) (ptr p) (l₁ ++ b :: l₂) none :=
    Seg.drop_after h hnd
  apply hseg.congr
  intro x hx
  by_cases hxb : x = b
  · subst hxb
    rw [update_self]
    show ptr ((m.store x 8 (m.load a 8)).load x 8) = ptr (m.load a 8)
    rw [load_store_link (m.load_lt a 8)]
  · rw [update_of_ne hxb]
    show ptr ((m.store b 8 (m.load a 8)).load x 8) = ptr (m.load x 8)
    rw [Buf.load_store_apart (hapart x hx hxb)]

end JuampiOs.Lib
