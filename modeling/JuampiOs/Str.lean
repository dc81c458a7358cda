import Mathlib.Data.List.Basic

/-!
# String views

The helpers of `str.c` that the network clients use. A view is the list of its bytes; text is
bytes, as in the source.
-/

namespace JuampiOs.Str

open List UInt32

/-- `str_from`: a C string up to its terminator. -/
def strFrom (s : List UInt8) : List UInt8 := s.takeWhile (· ≠ 0)

/-- `str_has_prefix` -/
def strHasPrefix (s start : List UInt8) : Bool := start.isPrefixOf s

/-- `str_trim_prefix` -/
def strTrimPrefix (s start : List UInt8) : List UInt8 :=
  if strHasPrefix s start then s.drop start.length else s

/-- `str_cut_ch`: whether the separator occurs, and what is before and after it. -/
def strCutCh (s : List UInt8) (sep : UInt8) : Bool × List UInt8 × List UInt8 :=
  (s.contains sep, s.takeWhile (· ≠ sep), (s.dropWhile (· ≠ sep)).drop 1)

/-- The loop of `str_to_u32`. -/
def digits (v : UInt32) : List UInt8 → Option UInt32
  | [] => some v
  | c :: s => if c < 48 ∨ 57 < c then none else digits (v * 10 + (c - 48).toUInt32) s

/-- `str_to_u32` -/
def strToU32 (s : List UInt8) : Option UInt32 := if s = [] then none else digits 0 s

/-- `str_copy`: the string at the destination afterwards. -/
def strCopy (cap : Nat) (s : List UInt8) : List UInt8 := s.take (cap - 1)

/-! ## Numbers -/

def isDigit (c : UInt8) : Bool := 48 ≤ c && c ≤ 57

/-- The number that a string of digits stands for, behind the digits of `v`. -/
def decimalFrom (v : Nat) (s : List UInt8) : Nat := s.foldl (fun v c => v * 10 + (c.toNat - 48)) v

def decimal (s : List UInt8) : Nat := decimalFrom 0 s

theorem digits_eq (v : Nat) (s : List UInt8) :
    digits (UInt32.ofNat v) s =
      if s.all isDigit then some (UInt32.ofNat (decimalFrom v s)) else none := by
  induction s generalizing v with
  | nil => rfl
  | cons c s ih =>
    rw [digits, all_cons]
    cases hc : isDigit c with
    | true =>
      obtain ⟨hge, hle⟩ : 48 ≤ c ∧ c ≤ 57 := by simpa [isDigit] using hc
      have hge' : 48 ≤ c.toNat := UInt8.le_iff_toNat_le.mp hge
      have hstep : ofNat v * 10 + (c - 48).toUInt32 =
          ofNat (v * 10 + (c.toNat - 48)) := by
        apply UInt32.toNat_inj.mp
        rw [UInt32.toNat_add, UInt32.toNat_mul, UInt8.toNat_toUInt32, UInt8.toNat_sub_of_le _ _ hge]
        simp only [toNat_ofNat', toNat_ofNat, UInt8.toNat_ofNat]
        omega
      rw [if_neg (not_or.mpr ⟨UInt8.not_lt.mpr hge, UInt8.not_lt.mpr hle⟩), hstep, ih,
        Bool.true_and]
      rfl
    | false =>
      rw [if_pos, Bool.false_and, if_neg Bool.false_ne_true]
      by_contra hnot
      obtain ⟨hge, hle⟩ := not_or.mp hnot
      simp [isDigit, UInt8.not_lt.mp hge, UInt8.not_lt.mp hle] at hc

/-- **`str_to_u32`** takes exactly the strings of digits, and gives their number modulo 2^32. -/
theorem strToU32_eq (s : List UInt8) :
    strToU32 s = if s ≠ [] ∧ s.all isDigit then some (UInt32.ofNat (decimal s)) else none := by
  unfold strToU32
  by_cases hs : s = []
  · rw [if_pos hs, if_neg fun h => h.1 hs]
  rw [if_neg hs]
  refine (digits_eq 0 s).trans ?_
  cases hall : s.all isDigit with
  | true => rw [if_pos rfl, if_pos ⟨hs, rfl⟩, decimal]
  | false => rw [if_neg Bool.false_ne_true, if_neg fun h => Bool.false_ne_true h.2]

/-! ## Cutting -/

theorem strCutCh_append {sep : UInt8} {a : List UInt8} (ha : sep ∉ a) (b : List UInt8) :
    strCutCh (a ++ sep :: b) sep = (true, a, b) := by
  have hall : ∀ c ∈ a, (decide (c ≠ sep)) = true := fun c hc =>
    decide_eq_true fun heq => ha (heq ▸ hc)
  unfold strCutCh
  rw [takeWhile_append_of_pos hall, dropWhile_append_of_pos hall]
  simp

theorem mem_of_mem_strCutCh {s : List UInt8} {sep b : UInt8}
    (h : b ∈ (strCutCh s sep).2.1 ∨ b ∈ (strCutCh s sep).2.2) : b ∈ s := by
  rcases h with h | h
  · exact (takeWhile_sublist _).subset h
  · exact (dropWhile_sublist _).subset (mem_of_mem_drop h)

end JuampiOs.Str
