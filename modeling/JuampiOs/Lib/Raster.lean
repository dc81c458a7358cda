import Mathlib.Data.List.Range

/-!
# Rasters

An array that holds rows one after the other, `pitch` cells apart: the cell at `a` is in row
`a / pitch`, at `a % pitch`. `copy` is a `memcpy` into an array, `copyRows` one for each of a
list of rows, of the same part of the row; `copyRows_apply` says what every cell holds
afterwards. `steps` are the positions a loop takes that advances by a fixed stride.
-/

namespace JuampiOs.Lib

open List

variable {α : Type}

/-- Copy `n` cells to `off`. -/
def copy (dst : Nat → α) (off n : Nat) (src : Nat → α) : Nat → α :=
  fun i => if off ≤ i ∧ i < off + n then src (i - off) else dst i

/-- Copy `n` cells to the column `col` of each of the rows. -/
def copyRows (pitch col n : Nat) (src : Nat → Nat → α) : List Nat → (Nat → α) → Nat → α
  | [], dst => dst
  | y :: ys, dst => copyRows pitch col n src ys (copy dst (y * pitch + col) n (src y))

theorem mem_row {pitch col n y a : Nat} (h : col + n ≤ pitch) :
    y * pitch + col ≤ a ∧ a < y * pitch + col + n ↔
      a / pitch = y ∧ col ≤ a % pitch ∧ a % pitch < col + n := by
  rcases Nat.eq_zero_or_pos pitch with rfl | hpos
  · have : n = 0 := by omega
    subst this
    constructor <;> intro <;> omega
  constructor
  · rintro ⟨hlo, hhi⟩
    obtain ⟨d, rfl⟩ := Nat.exists_eq_add_of_le hlo
    have hd : d + col < pitch := by omega
    have heq : y * pitch + col + d = d + col + pitch * y := by
      rw [Nat.mul_comm]
      omega
    rw [heq, Nat.add_mul_div_left _ _ hpos, Nat.add_mul_mod_self_left, Nat.div_eq_of_lt hd,
      Nat.mod_eq_of_lt hd]
    omega
  · rintro ⟨rfl, hlo, hhi⟩
    have hdiv := Nat.div_add_mod a pitch
    rw [Nat.mul_comm] at hdiv
    omega

/-- A copy of rows leaves the source in the part of the rows it is for, and nothing else. -/
theorem copyRows_apply {pitch col n : Nat} (h : col + n ≤ pitch) (src : Nat → Nat → α)
    (ys : List Nat) (dst : Nat → α) (a : Nat) :
    copyRows pitch col n src ys dst a =
      if a / pitch ∈ ys ∧ col ≤ a % pitch ∧ a % pitch < col + n
      then src (a / pitch) (a % pitch - col) else dst a := by
  induction ys generalizing dst with
  | nil => simp [copyRows]
  | cons y ys ih =>
    rw [copyRows, ih]
    by_cases hin : col ≤ a % pitch ∧ a % pitch < col + n
    · by_cases hrow : a / pitch ∈ ys
      · rw [if_pos ⟨hrow, hin⟩, if_pos ⟨mem_cons_of_mem _ hrow, hin⟩]
      · rw [if_neg fun hc => hrow hc.1]
        by_cases hy : a / pitch = y
        · have hmem := (mem_row h).mpr ⟨hy, hin⟩
          rw [if_pos ⟨hy ▸ mem_cons_self, hin⟩]
          show (if _ then _ else _) = _
          rw [if_pos hmem, hy]
          congr 1
          have hdiv := Nat.div_add_mod a pitch
          rw [Nat.mul_comm, hy] at hdiv
          omega
        · have hmem : ¬ (y * pitch + col ≤ a ∧ a < y * pitch + col + n) :=
            fun hc => hy ((mem_row h).mp hc).1
          have hnot : ¬ (a / pitch ∈ y :: ys ∧ col ≤ a % pitch ∧ a % pitch < col + n) := by
            rintro ⟨hc, _⟩
            rcases mem_cons.mp hc with hc | hc
            · exact hy hc
            · exact hrow hc
          rw [if_neg hnot]
          exact if_neg hmem
    · have hmem : ¬ (y * pitch + col ≤ a ∧ a < y * pitch + col + n) :=
        fun hc => hin ((mem_row h).mp hc).2
      rw [if_neg fun hc => hin hc.2, if_neg fun hc => hin hc.2]
      exact if_neg hmem

/-- The positions below `n` of a loop with a stride. -/
def steps (stride n : Nat) : List Nat := (range ((n + stride - 1) / stride)).map (· * stride)

theorem mem_steps {stride n x : Nat} (hs : 0 < stride) (hx : x < n) :
    x / stride * stride ∈ steps stride n := by
  refine mem_map.mpr ⟨x / stride, mem_range.mpr ?_, rfl⟩
  rw [Nat.lt_div_iff_mul_lt hs]
  have := Nat.div_mul_le_self x stride
  omega

theorem lt_of_mem_steps {stride n t : Nat} (hs : 0 < stride) (ht : t ∈ steps stride n) : t < n := by
  obtain ⟨k, hk, rfl⟩ := mem_map.mp ht
  rw [mem_range, Nat.lt_div_iff_mul_lt hs] at hk
  omega

end JuampiOs.Lib
