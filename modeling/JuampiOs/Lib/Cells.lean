import Mathlib.Data.List.Basic

/-!
# Moving the cells of an array

Arrays as functions, and the loops that make room in one or close a gap, in the order that keeps
the cells still to be read. A cell is moved by `put`, which is given the cell it goes to as well:
a move may leave part of that as it was.
-/

namespace JuampiOs.Lib

open Function

variable {α : Type} (put : α → α → α)

/-- `for (k = 0; k < n; k++) put(a[dst + k], a[src + k])`. -/
def moveDown (a : Nat → α) (dst src : Nat) : Nat → Nat → α
  | 0 => a
  | n + 1 => moveDown (update a dst (put (a dst) (a src))) (dst + 1) (src + 1) n

/-- `for (i = lo + n; i > lo; i--) put(a[i], a[i - 1])`. -/
def moveUp (a : Nat → α) (lo : Nat) : Nat → Nat → α
  | 0 => a
  | n + 1 => moveUp (update a (lo + n + 1) (put (a (lo + n + 1)) (a (lo + n)))) lo n

theorem moveDown_apply {dst src : Nat} (h : dst ≤ src) (a : Nat → α) (n j : Nat) :
    moveDown put a dst src n j =
      if dst ≤ j ∧ j < dst + n then put (a j) (a (j - dst + src)) else a j := by
  induction n generalizing a dst src with
  | zero => rw [moveDown, if_neg (by omega)]
  | succ n ih =>
    rw [moveDown, ih (by omega)]
    rcases Nat.lt_trichotomy j dst with hlt | rfl | hgt
    · rw [if_neg (by omega), if_neg (by omega), update_of_ne (by omega)]
    · rw [if_neg (by omega), if_pos (by omega), update_self, Nat.sub_self, Nat.zero_add]
    -- past the first cell, nothing that is read has been written yet
    rw [update_of_ne (by omega), update_of_ne (by omega),
      show j - (dst + 1) + (src + 1) = j - dst + src by omega]
    by_cases hj : j < dst + (n + 1)
    · rw [if_pos (by omega), if_pos (by omega)]
    · rw [if_neg (by omega), if_neg (by omega)]

theorem moveUp_apply (a : Nat → α) (lo n j : Nat) :
    moveUp put a lo n j = if lo < j ∧ j ≤ lo + n then put (a j) (a (j - 1)) else a j := by
  induction n generalizing a with
  | zero => rw [moveUp, if_neg (by omega)]
  | succ n ih =>
    rw [moveUp, ih]
    rcases Nat.lt_trichotomy j (lo + n + 1) with hlt | rfl | hgt
    · rw [update_of_ne (by omega), update_of_ne (by omega)]
      by_cases hj : lo < j
      · rw [if_pos (by omega), if_pos (by omega)]
      · rw [if_neg (by omega), if_neg (by omega)]
    · rw [if_neg (by omega), if_pos (by omega), update_self]
      rfl
    · rw [if_neg (by omega), if_neg (by omega), update_of_ne (by omega)]

theorem forall_update {P : α → Prop} {a : Nat → α} {i n : Nat} {x : α} (hx : P x)
    (h : ∀ j < n, j ≠ i → P (a j)) : ∀ j < n, P (update a i x j) :=
  (forall_update_iff a fun j y => j < n → P y).mpr ⟨fun _ => hx, fun j hne hj => h j hj hne⟩

/-! ## Scanning -/

/-- `while (i < i₀ + n && p(i)) i++`. -/
def scanUp (p : Nat → Bool) : Nat → Nat → Nat
  | 0, i => i
  | n + 1, i => if p i then scanUp p n (i + 1) else i

/-- `while (i > 0 && p(i)) i--`. -/
def scanDown (p : Nat → Bool) : Nat → Nat
  | 0 => 0
  | i + 1 => if p (i + 1) then scanDown p i else i + 1

theorem scanUp_bounds (p : Nat → Bool) (n i : Nat) : i ≤ scanUp p n i ∧ scanUp p n i ≤ i + n := by
  induction n generalizing i with
  | zero => exact ⟨Nat.le_refl _, Nat.le_refl _⟩
  | succ n ih =>
    rw [scanUp]
    split
    · have := ih (i + 1)
      omega
    · omega

theorem scanDown_le (p : Nat → Bool) (i : Nat) : scanDown p i ≤ i := by
  induction i with
  | zero => exact Nat.le_refl _
  | succ i ih =>
    rw [scanDown]
    split
    · exact Nat.le_succ_of_le ih
    · exact Nat.le_refl _

end JuampiOs.Lib
